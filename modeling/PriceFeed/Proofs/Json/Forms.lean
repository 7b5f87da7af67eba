/-
  PriceFeed — the values of JSON that are accepted.

  For each type a relation `Form` says which values of JSON stand for which of its values: the
  integer of a word; the name of a precision, by itself or as the key of null; the three quotes
  as an array, or as members of an object, in any order and among any others.  The readers
  accept exactly these (`Fixed.ofJson?_eq_some`, `Precision.ofJson?_eq_some`,
  `Quartiles.ofJson?_eq_some`).

  Of an object's members the reader looks up each key by itself.  That none of the three is
  missing or there twice is the same as the members with these keys being the written ones, up
  to their order (`filter_perm_iff`).
-/
import PriceFeed.Json.Codec
import PriceFeed.Proofs.Json.Number

namespace PriceFeed

open Json

/-! ## Integers -/

/-- An integer as a value. -/
def Json.Value.ofInt (i : Int) : Value :=
  .number (.ofInt i)

namespace Json.Number

theorem toInt?_eq_some {n : Number} {i : Int} : n.toInt? = some i ↔ n = ofInt i := by
  obtain ⟨negative, whole, tail⟩ := n
  rw [ofInt, mk.injEq]
  dsimp only [toInt?]
  split
  · next htail => exact iff_of_false nofun fun h => htail h.2.2
  · next htail =>
    rw [and_iff_left (not_not.1 htail)]
    cases negative with
    | false =>
      rw [if_neg Bool.false_ne_true, Option.some.injEq, eq_comm (a := false),
        decide_eq_false_iff_not]
      omega
    | true =>
      rw [if_pos rfl, eq_comm (a := true), decide_eq_true_eq]
      split
      · exact iff_of_false nofun (by omega)
      · rw [Option.some.injEq]
        omega

theorem toWord?_eq_some {n : Number} {w : UInt64} : n.toWord? = some w ↔ n = ofInt w.toNat := by
  unfold toWord?
  rw [Option.bind_eq_bind, Option.bind_eq_some_iff]
  constructor
  · rintro ⟨i, hi, h⟩
    split at h
    · next hrange =>
      cases h
      rw [toInt?_eq_some.1 hi, UInt64.toNat_ofNat_of_lt' hrange.2, Int.toNat_of_nonneg hrange.1]
    · exact nomatch h
  · intro h
    refine ⟨w.toNat, toInt?_eq_some.2 h, ?_⟩
    rw [if_pos ⟨Int.natCast_nonneg _, w.toNat_lt_size⟩, Int.toNat_natCast, UInt64.ofNat_toNat]

theorem toInt64?_eq_some {n : Number} {q : Int64} : n.toInt64? = some q ↔ n = ofInt q.toInt := by
  unfold toInt64?
  rw [Option.bind_eq_bind, Option.bind_eq_some_iff]
  constructor
  · rintro ⟨i, hi, h⟩
    split at h
    · next hrange =>
      cases h
      rw [toInt?_eq_some.1 hi, Int64.toInt_ofInt_of_le hrange.1 (Int.lt_add_one_of_le hrange.2)]
    · exact nomatch h
  · intro h
    refine ⟨q.toInt, toInt?_eq_some.2 h, ?_⟩
    rw [if_pos ⟨q.le_toInt, Int.le_of_lt_add_one q.toInt_lt⟩, Int64.ofInt_toInt]

theorem toChars_ofInt (i : Int) : (ofInt i).toChars = Digits.ofInt i := by
  unfold toChars ofInt Digits.ofInt
  rw [List.append_nil]
  split <;> simp_all

end Json.Number

/-! ## Forms -/

/-- The JSON values that stand for a fixed-point value. -/
def Fixed.Form (x : Fixed) (v : Value) : Prop :=
  v = .ofInt x.raw.toNat

/-- The JSON values that stand for a precision. -/
inductive Precision.Form (p : Precision) : Value → Prop
  | name : p.Form (.text (unitsOf p.name.toList))
  | member : p.Form (.object [(unitsOf p.name.toList, .null)])

namespace Quartiles

def keys : List Units :=
  ["p25", "p50", "p75"].map fun key => unitsOf key.toList

/-- The three quotes, in order. -/
def items (q : Quartiles) : List Value :=
  [q.p25, q.p50, q.p75].map fun quote => .ofInt quote.toInt

/-- The JSON values that stand for quartiles.  The members of an object that have one of the keys
    are the three, in any order; the others may hold anything, but their keys have characters. -/
inductive Form (q : Quartiles) : Value → Prop
  | array : q.Form (.array q.items)
  | object {members} : (∀ m ∈ members, wellPaired m.1) →
    (members.filter fun m => m.1 ∈ keys).Perm (keys.zip q.items) → q.Form (.object members)

/-- What a value has under the keys: the items of an array in order, or members of an object. -/
def assignments : Value → List (Units × Value)
  | .array items => keys.zip items
  | .object members => members.filter fun m => m.1 ∈ keys
  | _ => []

/-- A text assigns a number to a key. -/
def Assigns (t : List Char) (key : String) (n : Int) : Prop :=
  ∃ v, Holds t v ∧ (unitsOf key.toList, .ofInt n) ∈ assignments v

end Quartiles

/-! ## Reading -/

section
variable {v : Value}

theorem Fixed.ofJson?_eq_some {x : Fixed} : Fixed.ofJson? v = some x ↔ x.Form v := by
  unfold Fixed.ofJson? Fixed.Form Value.ofInt
  split
  · next n =>
    rw [Option.map_eq_some_iff, Value.number.injEq, ← Number.toWord?_eq_some]
    exact ⟨fun ⟨w, hw, hx⟩ => hx ▸ hw, fun h => ⟨x.raw, h, rfl⟩⟩
  · next hne => exact iff_of_false nofun (hne _)

theorem Precision.ofName?_eq_some {name : Units} {p : Precision} :
    Precision.ofName? name = some p ↔ unitsOf p.name.toList = name := by
  constructor
  · intro h
    unfold Precision.ofName? at h
    have hname := List.find?_some h
    exact beq_iff_eq.1 hname
  · rintro rfl
    cases p <;> rfl

theorem Precision.ofJson?_eq_some {p : Precision} : Precision.ofJson? v = some p ↔ p.Form v := by
  constructor
  · fun_cases Precision.ofJson? v with
    | case1 name => intro h; rw [← Precision.ofName?_eq_some.1 h]; exact .name
    | case2 name => intro h; rw [← Precision.ofName?_eq_some.1 h]; exact .member
    | case3 => exact nofun
  · rintro (_ | _) <;> exact Precision.ofName?_eq_some.2 rfl

theorem Quote.ofJson?_eq_some {q : Quote} : Quote.ofJson? v = some q ↔ v = .ofInt q.toInt := by
  unfold Quote.ofJson? Value.ofInt
  split
  · next n => rw [Value.number.injEq, Number.toInt64?_eq_some]
  · next hne => exact iff_of_false nofun (hne _)

end

section
variable {members : List (Units × Value)}

theorem Quote.ofMember?_eq_some {key : String} {q : Quote} :
    Quote.ofMember? key members = some q ↔
      (members.filter fun m => m.1 == unitsOf key.toList) =
        [(unitsOf key.toList, .ofInt q.toInt)] := by
  unfold Quote.ofMember? Value.valuesAt
  have hkeys : ∀ m ∈ members.filter fun m => m.1 == unitsOf key.toList,
      m.1 = unitsOf key.toList := fun m hm => beq_iff_eq.1 (List.mem_filter.1 hm).2
  generalize members.filter (fun m => m.1 == unitsOf key.toList) = found at hkeys ⊢
  match found with
  | [] => exact iff_of_false nofun nofun
  | [(k, v)] =>
    obtain rfl : k = unitsOf key.toList := hkeys _ (List.mem_singleton_self _)
    show Quote.ofJson? v = some q ↔ _
    rw [Quote.ofJson?_eq_some, List.singleton_inj, Prod.mk.injEq, and_iff_right rfl]
  | _ :: _ :: _ => exact iff_of_false nofun nofun

section
variable {pairs : List (Units × Value)} (hkeys : (pairs.map Prod.fst).Nodup)
include hkeys

/-- Of pairs with different keys, one has the key of a given one. -/
theorem filter_eq_of_nodup {m : Units × Value} (hm : m ∈ pairs) :
    (pairs.filter fun m' => m'.1 == m.1) = [m] := by
  induction pairs with
  | nil => exact absurd hm List.not_mem_nil
  | cons m' pairs ih =>
    rw [List.map_cons, List.nodup_cons] at hkeys
    rcases List.mem_cons.1 hm with rfl | hm
    · rw [List.filter_cons_of_pos (by exact beq_self_eq_true m.1), List.filter_eq_nil_iff.2]
      intro m' hm' heq
      exact hkeys.1 (beq_iff_eq.1 heq ▸ List.mem_map_of_mem hm')
    · rw [List.filter_cons_of_neg, ih hkeys.2 hm]
      intro heq
      exact hkeys.1 (beq_iff_eq.1 heq ▸ List.mem_map_of_mem hm)

theorem filter_key_of_perm (h : (members.filter fun m => m.1 ∈ pairs.map Prod.fst).Perm pairs)
    {m : Units × Value} (hm : m ∈ pairs) : (members.filter fun m' => m'.1 == m.1) = [m] := by
  have hfilter := h.filter fun m' => m'.1 == m.1
  rw [filter_eq_of_nodup hkeys hm, List.perm_singleton, List.filter_filter] at hfilter
  rw [← hfilter]
  refine List.filter_congr fun m' _ => ?_
  cases heq : m'.1 == m.1 with
  | false => rfl
  | true =>
    rw [beq_iff_eq.1 heq, decide_eq_true (List.mem_map_of_mem hm)]
    rfl

theorem perm_of_filter_key (h : ∀ m ∈ pairs, (members.filter fun m' => m'.1 == m.1) = [m]) :
    (members.filter fun m => m.1 ∈ pairs.map Prod.fst).Perm pairs := by
  induction pairs with
  | nil => simp
  | cons m pairs ih =>
    rw [List.map_cons, List.nodup_cons] at hkeys
    obtain ⟨hm, hpairs⟩ := List.forall_mem_cons.1 h
    refine (List.filter_append_perm (fun m' => m'.1 == m.1) _).symm.trans ?_
    rw [List.filter_filter, List.filter_filter]
    have hfirst : (members.filter fun m' =>
        m'.1 == m.1 && decide (m'.1 ∈ (m :: pairs).map Prod.fst)) = [m] := by
      rw [← hm]
      refine List.filter_congr fun m' _ => ?_
      cases heq : m'.1 == m.1 with
      | false => rfl
      | true => simp [beq_iff_eq.1 heq]
    have hrest : (members.filter fun m' =>
        !(m'.1 == m.1) && decide (m'.1 ∈ (m :: pairs).map Prod.fst)) =
        members.filter fun m' => m'.1 ∈ pairs.map Prod.fst := by
      refine List.filter_congr fun m' _ => ?_
      cases heq : m'.1 == m.1 with
      | false => simp [beq_eq_false_iff_ne.1 heq]
      | true => simpa [beq_iff_eq.1 heq] using hkeys.1
    rw [hfirst, hrest]
    exact (ih hkeys.2 hpairs).cons m

/-- The members with one of the keys are the given pairs, in some order, exactly if under each key
    there is one member, the given one. -/
theorem filter_perm_iff : (members.filter fun m => m.1 ∈ pairs.map Prod.fst).Perm pairs ↔
    ∀ m ∈ pairs, (members.filter fun m' => m'.1 == m.1) = [m] :=
  ⟨fun h _ hm => filter_key_of_perm hkeys h hm, perm_of_filter_key hkeys⟩

end

end

namespace Quartiles
variable {q : Quartiles}

theorem nodup_keys (q : Quartiles) : ((keys.zip q.items).map Prod.fst).Nodup := by
  show keys.Nodup
  decide

theorem form_array_iff {items : List Value} : q.Form (.array items) ↔ items = q.items := by
  constructor
  · rintro ⟨⟩
    rfl
  · rintro rfl
    exact .array

/-- An object is a form of quartiles exactly if each of the three keys has one member, with the
    quote for a value. -/
theorem form_object_iff {members : List (Units × Value)} :
    q.Form (.object members) ↔ (∀ m ∈ members, wellPaired m.1) ∧
      Quote.ofMember? "p25" members = some q.p25 ∧ Quote.ofMember? "p50" members = some q.p50 ∧
      Quote.ofMember? "p75" members = some q.p75 := by
  have hperm : (members.filter fun m => m.1 ∈ keys).Perm (keys.zip q.items) ↔ _ :=
    filter_perm_iff q.nodup_keys
  have hform : q.Form (.object members) ↔ (∀ m ∈ members, wellPaired m.1) ∧
      (members.filter fun m => m.1 ∈ keys).Perm (keys.zip q.items) := by
    constructor
    · rintro (_ | ⟨hpaired, hmembers⟩)
      exact ⟨hpaired, hmembers⟩
    · exact fun ⟨hpaired, hmembers⟩ => .object hpaired hmembers
  rw [hform, hperm, Quote.ofMember?_eq_some, Quote.ofMember?_eq_some, Quote.ofMember?_eq_some]
  simp only [keys, items, List.map_cons, List.map_nil, List.zip_cons_cons, List.zip_nil_right,
    List.forall_mem_cons, List.not_mem_nil]
  simp

/-- The form that is written. -/
theorem form_members (q : Quartiles) : q.Form (.object (keys.zip q.items)) := by
  have hmem : ∀ m ∈ keys.zip q.items, m.1 ∈ keys := fun m hm => (List.of_mem_zip hm).1
  have hpaired : ∀ k ∈ keys, wellPaired k = true := by decide
  refine .object (fun m hm => hpaired _ (hmem m hm)) ?_
  rw [List.filter_eq_self.2 fun m hm => decide_eq_true (hmem m hm)]

theorem ofJson?_eq_some {v : Value} : Quartiles.ofJson? v = some q ↔ q.Form v := by
  fun_cases Quartiles.ofJson? v with
  | case1 a b c =>
    rw [form_array_iff]
    simp only [Option.bind_eq_bind, Option.bind_eq_some_iff, Quote.ofJson?_eq_some]
    constructor
    · rintro ⟨p25, rfl, p50, rfl, p75, rfl, ⟨⟩⟩
      rfl
    · rintro ⟨⟩
      exact ⟨_, rfl, _, rfl, _, rfl, rfl⟩
  | case2 members hpaired =>
    rw [form_object_iff, and_iff_right (List.all_eq_true.1 hpaired)]
    simp only [Option.bind_eq_bind, Option.bind_eq_some_iff]
    constructor
    · rintro ⟨p25, h25, p50, h50, p75, h75, ⟨⟩⟩
      exact ⟨h25, h50, h75⟩
    · rintro ⟨h25, h50, h75⟩
      exact ⟨_, h25, _, h50, _, h75, rfl⟩
  | case3 members hpaired =>
    rw [form_object_iff]
    exact iff_of_false nofun fun h => hpaired (List.all_eq_true.2 h.1)
  | case4 v harray hobject =>
    refine iff_of_false nofun ?_
    rintro (_ | _)
    · exact harray _ _ _ rfl
    · exact hobject _ rfl

end Quartiles

end PriceFeed
