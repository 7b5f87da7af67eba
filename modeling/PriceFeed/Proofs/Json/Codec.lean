/-
  PriceFeed — reading back what was written.

  A text is accepted exactly if it holds a form of a value, and what is written holds one
  (`Fixed.holds_toJson`, `Precision.holds_toJson`, `Quartiles.holds_toJson`).  So each type has
  a reader and a writer that fit together (`IsCodec`), for all the texts that are read, of which
  only a few are ever written.

  * `codecs_read_back`: what is written is read as the value that it was written for; and
    texts that assign the same numbers to the quartiles are written as one text.
-/
import PriceFeed.Proofs.Json.Build
import PriceFeed.Proofs.Json.Forms

namespace PriceFeed

open Json

/-! ## Writing -/

/-- Characters that stand for themselves between quotes. -/
def Json.Plain (cs : List Char) : Prop :=
  ∀ c ∈ cs, c ≠ '"' ∧ c ≠ '\\' ∧ 0x20 ≤ c.toNat

instance (cs : List Char) : Decidable (Plain cs) :=
  List.decidableBAll _ cs

theorem quoted_unitsOf {cs : List Char} (h : Plain cs) : Quoted (unitsOf cs) cs := by
  induction cs with
  | nil => exact .nil
  | cons c cs ih =>
    obtain ⟨⟨hquote, hslash, hcontrol⟩, hcs⟩ := List.forall_mem_cons.1 h
    exact .plain hquote hslash hcontrol (ih hcs)

section
variable {ts : List Token} {cs : List Char}

theorem spells_text {w : List Char} (hw : Plain w) (h : Spells ts cs) :
    Spells (.text (unitsOf w) :: ts) ('"' :: w ++ '"' :: cs) := by
  have hspells := Spells.token (.text (quoted_unitsOf hw)) (fun _ _ => id) h
  rwa [List.append_assoc] at hspells

theorem spells_integer (i : Int) (hend : ∀ c ∈ cs.head?, ¬ Number.Part c)
    (h : Spells ts cs) : Spells (.number (.ofInt i) :: ts) (Digits.ofInt i ++ cs) := by
  rw [← Number.toChars_ofInt]
  exact .token (.number (.exponent .absent)) hend h

theorem spells_member {key : String} (hkey : Plain key.toList) (q : Quote)
    (hend : ∀ c ∈ cs.head?, ¬ Number.Part c) (h : Spells ts cs) :
    Spells (Value.pairTokens (unitsOf key.toList, .ofInt q.toInt) ++ ts)
      (Quote.toMember key q ++ cs) := by
  have hspells := spells_text hkey (.token .colon (fun _ _ => id) (spells_integer q.toInt hend h))
  rw [Value.pairTokens, Value.ofInt, Value.tokens, Quote.toMember, List.append_assoc]
  exact hspells

end

theorem Fixed.holds_toJson (x : Fixed) : Holds x.toJson (.ofInt x.raw.toNat) := by
  have hend : ∀ c ∈ ([] : List Char).head?, ¬ Number.Part c := nofun
  have hspells := spells_integer x.raw.toNat hend .nil
  rw [List.append_nil] at hspells
  rw [Holds, Value.ofInt, Value.tokens]
  exact hspells

theorem Precision.holds_toJson (p : Precision) : Holds p.toJson (.text (unitsOf p.name.toList)) := by
  rw [Holds, Value.tokens]
  exact spells_text (by cases p <;> decide) .nil

theorem Quartiles.holds_toJson (q : Quartiles) : Holds q.toJson (.object (keys.zip q.items)) := by
  have htext : q.toJson = '\x7b' :: (Quote.toMember "p25" q.p25 ++ ',' ::
      (Quote.toMember "p50" q.p50 ++ ',' :: (Quote.toMember "p75" q.p75 ++ ['\x7d']))) := by
    simp [toJson]
  have htokens : (Value.object (keys.zip q.items)).tokens = .openObject ::
      (Value.pairTokens (unitsOf "p25".toList, .ofInt q.p25.toInt) ++ .comma ::
        (Value.pairTokens (unitsOf "p50".toList, .ofInt q.p50.toInt) ++ .comma ::
          (Value.pairTokens (unitsOf "p75".toList, .ofInt q.p75.toInt) ++ [.closeObject]))) := by
    simp [Value.tokens_object, keys, items, List.intercalate_cons_cons]
  have hcomma : ∀ {ts cs}, Spells ts cs → Spells (.comma :: ts) (',' :: cs) :=
    fun h => .token .comma (fun _ _ => id) h
  have hend : ∀ {c : Char} {cs : List Char}, ¬ Number.Part c →
      ∀ c' ∈ (c :: cs).head?, ¬ Number.Part c' := by
    rintro c cs hc _ ⟨⟩
    exact hc
  rw [Holds, htext, htokens]
  refine .token .openObject (fun _ _ => id) ?_
  refine spells_member (by decide) _ (hend (by simp [Number.Part])) (hcomma ?_)
  refine spells_member (by decide) _ (hend (by simp [Number.Part])) (hcomma ?_)
  refine spells_member (by decide) _ (hend (by simp [Number.Part])) ?_
  exact .token .closeObject (fun _ _ => id) .nil

/-! ## Codecs -/

/-- A reader and a writer that fit together.  What is written is read back; accepted are the texts
    that hold a form of a value; and to write a value that was read does not change what is read. -/
structure IsCodec {α : Type} (decode : List Char → Option α) (encode : α → List Char)
    (Form : α → Value → Prop) : Prop where
  decode_encode : ∀ a, decode (encode a) = some a
  decode_eq_some_iff : ∀ t a, decode t = some a ↔ ∃ v, Holds t v ∧ Form a v
  decode_rewrite : ∀ t a, decode t = some a → decode (encode a) = decode t

theorem isCodec_of_form {α : Type} {ofJson? : Value → Option α} {encode : α → List Char}
    {Form : α → Value → Prop} (hread : ∀ v a, ofJson? v = some a ↔ Form a v)
    (hwrite : ∀ a, ∃ v, Holds (encode a) v ∧ Form a v) :
    IsCodec (fun t => (Value.ofChars? t).bind ofJson?) encode Form := by
  have hiff : ∀ t a, (Value.ofChars? t).bind ofJson? = some a ↔ ∃ v, Holds t v ∧ Form a v := by
    intro t a
    simp only [Option.bind_eq_some_iff, ofChars?_eq_some_iff, hread]
  have hencode : ∀ a, (Value.ofChars? (encode a)).bind ofJson? = some a :=
    fun a => (hiff _ a).2 (hwrite a)
  exact ⟨hencode, hiff, fun t a h => (hencode a).trans h.symm⟩

namespace Quartiles
variable {t : List Char} {v : Value} {q q' : Quartiles}

theorem mem_assignments_iff (h : q.Form v) {m : Units × Value} :
    m ∈ assignments v ↔ m ∈ keys.zip q.items := by
  cases h with
  | array => rfl
  | object _ hmembers => exact hmembers.mem_iff

theorem assigns_iff (h : Quartiles.decode t = some q) {key : String} {n : Int} :
    Assigns t key n ↔ (unitsOf key.toList, .ofInt n) ∈ keys.zip q.items := by
  obtain ⟨v, hv, h⟩ := Option.bind_eq_some_iff.1 h
  rw [← mem_assignments_iff (ofJson?_eq_some.1 h)]
  constructor
  · rintro ⟨v', hv', hmem⟩
    obtain rfl : v' = v := Option.some.inj ((ofChars?_eq_some_iff.2 hv').symm.trans hv)
    exact hmem
  · exact fun hmem => ⟨v, ofChars?_eq_some_iff.1 hv, hmem⟩

theorem quote_eq_of_mem {k : Units} {a b : Quote}
    (ha : (k, Value.ofInt a.toInt) ∈ keys.zip q.items)
    (hb : (k, Value.ofInt b.toInt) ∈ keys.zip q.items) : a = b := by
  have hmem : (k, Value.ofInt b.toInt) ∈ (keys.zip q.items).filter fun m => m.1 == k :=
    List.mem_filter.2 ⟨hb, beq_self_eq_true k⟩
  rw [filter_eq_of_nodup q.nodup_keys ha, List.mem_singleton, Prod.mk.injEq] at hmem
  have hread := Quote.ofJson?_eq_some.2 hmem.2
  rw [Quote.ofJson?_eq_some.2 rfl] at hread
  exact (Option.some.inj hread).symm

/-- Quartiles with the numbers that a text assigns are those that are read from it. -/
theorem eq_of_assigns (h : Quartiles.decode t = some q) (h25 : Assigns t "p25" q'.p25.toInt)
    (h50 : Assigns t "p50" q'.p50.toInt) (h75 : Assigns t "p75" q'.p75.toInt) : q' = q := by
  rw [assigns_iff h] at h25 h50 h75
  obtain ⟨p25, p50, p75⟩ := q'
  obtain rfl : p25 = q.p25 := quote_eq_of_mem h25 (.head _)
  obtain rfl : p50 = q.p50 := quote_eq_of_mem h50 (.tail _ (.head _))
  obtain rfl : p75 = q.p75 := quote_eq_of_mem h75 (.tail _ (.tail _ (.head _)))
  rfl

theorem assigns_self (h : Quartiles.decode t = some q) : Assigns t "p25" q.p25.toInt ∧
    Assigns t "p50" q.p50.toInt ∧ Assigns t "p75" q.p75.toInt := by
  simp only [assigns_iff h]
  exact ⟨.head _, .tail _ (.head _), .tail _ (.tail _ (.head _))⟩

end Quartiles

theorem fixed_isCodec : IsCodec Fixed.decode Fixed.toJson Fixed.Form :=
  isCodec_of_form (fun _ _ => Fixed.ofJson?_eq_some) fun x => ⟨_, x.holds_toJson, rfl⟩

theorem precision_isCodec : IsCodec Precision.decode Precision.toJson Precision.Form :=
  isCodec_of_form (fun _ _ => Precision.ofJson?_eq_some) fun p => ⟨_, p.holds_toJson, .name⟩

theorem quartiles_isCodec : IsCodec Quartiles.decode Quartiles.toJson Quartiles.Form :=
  isCodec_of_form (fun _ _ => Quartiles.ofJson?_eq_some) fun q =>
    ⟨_, q.holds_toJson, q.form_members⟩

/-- **What is written is read back**, for fixed-point values, precisions and quartiles alike, and
    what is read, from any text that holds a form of a value, is kept by writing it and reading it
    again.  Two texts of quartiles assign the same numbers to the same keys exactly if they are
    written as one text. -/
theorem codecs_read_back :
    IsCodec Fixed.decode Fixed.toJson Fixed.Form ∧
    IsCodec Precision.decode Precision.toJson Precision.Form ∧
    IsCodec Quartiles.decode Quartiles.toJson Quartiles.Form ∧
    ∀ t t' q q', Quartiles.decode t = some q → Quartiles.decode t' = some q' →
      ((∀ key n, Quartiles.Assigns t key n ↔ Quartiles.Assigns t' key n) ↔
        q.toJson = q'.toJson) := by
  refine ⟨fixed_isCodec, precision_isCodec, quartiles_isCodec, fun t t' q q' h h' => ?_⟩
  constructor
  · intro hsame
    obtain ⟨h25, h50, h75⟩ := Quartiles.assigns_self h
    rw [Quartiles.eq_of_assigns h' ((hsame _ _).1 h25) ((hsame _ _).1 h50) ((hsame _ _).1 h75)]
  · intro hsame key n
    have hread := quartiles_isCodec.decode_encode q
    rw [hsame, quartiles_isCodec.decode_encode] at hread
    rw [Quartiles.assigns_iff h, Quartiles.assigns_iff h', Option.some.inj hread]

/-- An array, and an object with its members out of order, a key in escapes, half a surrogate pair
    under an unknown key that has members of its own, and a number that is no integer. -/
theorem codecs_read_back_mixed :
    Quartiles.decode "[-9223372036854775808,0,3]".toList = some ⟨Int64.minValue, 0, 3⟩ ∧
    Quartiles.decode ("\n\x7b\"p75\": 3, \"x\\u0041\": [\x7b\"p25\": \"\\ud800\"\x7d, 1e5]," ++
      "\"p\\u00325\":-9223372036854775808,\"p50\" :0 \x7d").toList =
      some ⟨Int64.minValue, 0, 3⟩ ∧
    Quartiles.decode (Quartiles.toJson ⟨Int64.minValue, 0, 3⟩) = some ⟨Int64.minValue, 0, 3⟩ ∧
    (Quartiles.Assigns "[-9223372036854775808,0,3]".toList "p25" (-9223372036854775808) ↔
      Quartiles.Assigns
        ("\n\x7b\"p75\": 3, \"x\\u0041\": [\x7b\"p25\": \"\\ud800\"\x7d, 1e5]," ++
          "\"p\\u00325\":-9223372036854775808,\"p50\" :0 \x7d").toList
        "p25" (-9223372036854775808)) := by
  have harray : Quartiles.decode "[-9223372036854775808,0,3]".toList =
      some ⟨Int64.minValue, 0, 3⟩ := by decide +kernel
  have hobject : Quartiles.decode
      ("\n\x7b\"p75\": 3, \"x\\u0041\": [\x7b\"p25\": \"\\ud800\"\x7d, 1e5]," ++
        "\"p\\u00325\":-9223372036854775808,\"p50\" :0 \x7d").toList =
      some ⟨Int64.minValue, 0, 3⟩ := by decide +kernel
  obtain ⟨-, -, hcodec, hsame⟩ := codecs_read_back
  exact ⟨harray, hobject, (hcodec.decode_rewrite _ _ hobject).trans hobject,
    (hsame _ _ _ _ harray hobject).2 rfl _ _⟩

end PriceFeed
