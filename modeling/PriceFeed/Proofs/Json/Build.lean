/-
  PriceFeed — the builder reads the tokens of a value.

  The tokens that a state of the builder has been given are written down from the state
  (`Build.tokens`), and a step puts its token after them (`tokens_of_step`); so what is built
  has the tokens that it was built from.  The other way round, the tokens of a value take the
  builder from wherever a value may come to where it has been built (`foldlM_tokens`), by
  induction on the value.

  * `ofTokens?_eq_some_iff`: a value is built from its own tokens, and from no others;
  * `ofChars?_eq_some_iff`: a text is read as the value that it holds, and as no other.
-/
import PriceFeed.Proofs.Json.Scanner

namespace PriceFeed.Json

/-! ## Tokens of values -/

namespace Value

/-- Induction on a value: its items and the values of its members come first. -/
theorem induct {P : Value → Prop} (null : P .null) (bool : ∀ b, P (.bool b))
    (number : ∀ n, P (.number n)) (text : ∀ us, P (.text us))
    (array : ∀ items, (∀ v ∈ items, P v) → P (.array items))
    (object : ∀ members, (∀ m ∈ members, P m.2) → P (.object members)) (v : Value) : P v :=
  match v with
  | .null => null
  | .bool b => bool b
  | .number n => number n
  | .text us => text us
  | .array items => array items fun v _ => induct null bool number text array object v
  | .object members => object members fun m _ => induct null bool number text array object m.2
termination_by sizeOf v
decreasing_by
  · next h => exact sizeOf_item_lt h
  · next h => exact sizeOf_member_lt h

/-- The tokens of a member. -/
def pairTokens (m : Units × Value) : List Token :=
  .text m.1 :: .colon :: m.2.tokens

theorem tokens_array (items : List Value) : (array items).tokens =
    .openArray :: [Token.comma].intercalate (items.map tokens) ++ [.closeArray] := by
  rw [tokens]

theorem tokens_object (members : List (Units × Value)) : (object members).tokens =
    .openObject :: [Token.comma].intercalate (members.map pairTokens) ++ [.closeObject] := by
  rw [tokens]
  rfl

end Value

section
variable {α : Type} (f : α → List Token) (xs : List α) (x : α)

/-- The last of some items, and what comes before it. -/
theorem intercalate_concat : [Token.comma].intercalate ((xs ++ [x]).map f) =
    (xs.flatMap fun y => f y ++ [.comma]) ++ f x := by
  induction xs with
  | nil => exact List.intercalate_singleton
  | cons y xs ih =>
    rw [List.cons_append, List.map_cons, List.intercalate_cons_of_ne_nil (by simp), ih,
      List.flatMap_cons, List.append_assoc _ _ (f x)]

/-- The first of some items, and what comes after it. -/
theorem intercalate_cons : [Token.comma].intercalate ((x :: xs).map f) =
    f x ++ xs.flatMap fun y => .comma :: f y := by
  induction xs generalizing x with
  | nil => rw [List.map_singleton, List.intercalate_singleton, List.flatMap_nil, List.append_nil]
  | cons y xs ih =>
    rw [List.map_cons, List.intercalate_cons_of_ne_nil (by simp), ih, List.flatMap_cons,
      List.append_assoc]
    rfl

end

namespace Build

/-! ## From tokens to values -/

/-- The tokens of an open container, up to where a value comes next. -/
def Frame.tokens : Frame → List Token
  | .array items => .openArray :: items.reverse.flatMap fun v => v.tokens ++ [.comma]
  | .object members k =>
    .openObject :: (members.reverse.flatMap fun m => Value.pairTokens m ++ [.comma]) ++
      [.text k, .colon]

/-- The tokens that a state has been given. -/
def tokens : Build → List Token
  | .value frames => frames.reverse.flatMap Frame.tokens
  | .item frames => frames.reverse.flatMap Frame.tokens ++ [.openArray]
  | .member frames => frames.reverse.flatMap Frame.tokens ++ [.openObject]
  | .key frames members => frames.reverse.flatMap Frame.tokens ++
    .openObject :: members.reverse.flatMap fun m => Value.pairTokens m ++ [.comma]
  | .colon frames members k => frames.reverse.flatMap Frame.tokens ++
    .openObject :: (members.reverse.flatMap fun m => Value.pairTokens m ++ [.comma]) ++ [.text k]
  | .built frames v => frames.reverse.flatMap Frame.tokens ++ v.tokens

theorem tokens_of_start {frames : List Frame} {t : Token} {b : Build}
    (h : start frames t = some b) : b.tokens = (Build.value frames).tokens ++ [t] := by
  cases t <;> cases h <;> simp [tokens, Value.tokens]

/-- **A step puts its token after those that came before.** -/
theorem tokens_of_step {b b' : Build} {t : Token} (h : step b t = some b') :
    b'.tokens = b.tokens ++ [t] := by
  revert h
  fun_cases step b t with
  | case1 frames => exact tokens_of_start
  | case2 frames => rintro ⟨⟩; simp [tokens, Value.tokens_array]
  | case3 frames t =>
    intro h
    rw [tokens_of_start h]
    simp [tokens, Frame.tokens]
  | case4 frames => rintro ⟨⟩; simp [tokens, Value.tokens_object]
  | case5 frames k => rintro ⟨⟩; simp [tokens]
  | case6 frames members k => rintro ⟨⟩; simp [tokens]
  | case7 frames members k => rintro ⟨⟩; simp [tokens, Frame.tokens]
  | case8 items frames v => rintro ⟨⟩; simp [tokens, Frame.tokens]
  | case9 items frames v =>
    rintro ⟨⟩
    rw [tokens, List.reverse_cons, Value.tokens_array, intercalate_concat]
    simp [tokens, Frame.tokens]
  | case10 members k frames v => rintro ⟨⟩; simp [tokens, Frame.tokens, Value.pairTokens]
  | case11 members k frames v =>
    rintro ⟨⟩
    rw [tokens, List.reverse_cons, Value.tokens_object, intercalate_concat]
    simp [tokens, Frame.tokens, Value.pairTokens]
  | case12 => exact nofun

theorem tokens_of_foldlM {b b' : Build} {ts : List Token} (h : ts.foldlM step b = some b') :
    b'.tokens = b.tokens ++ ts := by
  induction ts generalizing b with
  | nil =>
    cases h
    exact (List.append_nil _).symm
  | cons t ts ih =>
    rw [List.foldlM_cons] at h
    obtain ⟨next, hnext, h⟩ := Option.bind_eq_some_iff.1 h
    rw [ih h, tokens_of_step hnext, List.append_assoc]
    rfl

/-! ## And back -/

/-- Wherever a value may come, its tokens lead to where it has been built. -/
def Builds (v : Value) : Prop :=
  ∀ frames ts, (v.tokens ++ ts).foldlM step (.value frames) = ts.foldlM step (.built frames v)

section
variable {frames : List Frame} {ts : List Token}

/-- The first item may come where any item may. -/
theorem foldlM_item (v : Value) : (v.tokens ++ ts).foldlM step (.item frames) =
    (v.tokens ++ ts).foldlM step (.value (.array [] :: frames)) := by
  cases v <;> simp only [Value.tokens, List.cons_append] <;> rfl

theorem foldlM_items {items vs : List Value} (h : ∀ w ∈ vs, Builds w) (v : Value) :
    ((vs.flatMap fun w => .comma :: w.tokens) ++ .closeArray :: ts).foldlM step
        (.built (.array items :: frames) v) =
      ts.foldlM step (.built frames (.array (items.reverse ++ v :: vs))) := by
  induction vs generalizing items v with
  | nil =>
    show ts.foldlM step (.built frames (.array (v :: items).reverse)) = _
    rw [List.reverse_cons]
  | cons w vs ih =>
    obtain ⟨hw, hvs⟩ := List.forall_mem_cons.1 h
    rw [List.flatMap_cons, List.append_assoc, List.cons_append]
    show (w.tokens ++ _).foldlM step (.value (.array (v :: items) :: frames)) = _
    rw [hw, ih hvs, List.reverse_cons, List.append_assoc]
    rfl

theorem foldlM_members {members ms : List (Units × Value)} (h : ∀ m ∈ ms, Builds m.2) (k : Units)
    (v : Value) :
    ((ms.flatMap fun m => .comma :: Value.pairTokens m) ++ .closeObject :: ts).foldlM step
        (.built (.object members k :: frames) v) =
      ts.foldlM step (.built frames (.object (members.reverse ++ (k, v) :: ms))) := by
  induction ms generalizing members k v with
  | nil =>
    show ts.foldlM step (.built frames (.object ((k, v) :: members).reverse)) = _
    rw [List.reverse_cons]
  | cons m ms ih =>
    obtain ⟨hm, hms⟩ := List.forall_mem_cons.1 h
    rw [List.flatMap_cons, List.append_assoc, Value.pairTokens, List.cons_append, List.cons_append,
      List.cons_append]
    show (m.2.tokens ++ _).foldlM step (.value (.object ((k, v) :: members) m.1 :: frames)) = _
    rw [hm, ih hms, List.reverse_cons, List.append_assoc]
    rfl

end

/-- **The tokens of a value lead to where it has been built**, wherever a value may come. -/
theorem foldlM_tokens (v : Value) : Builds v := by
  induction v using Value.induct with
  | null | bool | number | text =>
    intro frames ts
    rw [Value.tokens]
    rfl
  | array items ih =>
    intro frames ts
    rw [Value.tokens_array, List.cons_append, List.cons_append, List.append_assoc]
    show List.foldlM step (.item frames) _ = _
    cases items with
    | nil => rfl
    | cons v vs =>
      obtain ⟨hv, hvs⟩ := List.forall_mem_cons.1 ih
      rw [intercalate_cons, List.append_assoc, foldlM_item, hv]
      exact foldlM_items hvs v
  | object members ih =>
    intro frames ts
    rw [Value.tokens_object, List.cons_append, List.cons_append, List.append_assoc]
    show List.foldlM step (.member frames) _ = _
    cases members with
    | nil => rfl
    | cons m ms =>
      obtain ⟨hm, hms⟩ := List.forall_mem_cons.1 ih
      rw [intercalate_cons, List.append_assoc, Value.pairTokens, List.cons_append, List.cons_append]
      show (m.2.tokens ++ _).foldlM step (.value (.object [] m.1 :: frames)) = _
      rw [hm]
      exact foldlM_members hms m.1 m.2

end Build

/-- **A value is built from its own tokens**, and from no others. -/
theorem ofTokens?_eq_some_iff {ts : List Token} {v : Value} :
    Value.ofTokens? ts = some v ↔ ts = v.tokens := by
  unfold Value.ofTokens?
  constructor
  · intro h
    obtain ⟨last, hlast, h⟩ := Option.bind_eq_some_iff.1 h
    have htokens := Build.tokens_of_foldlM hlast
    revert h
    fun_cases Build.finish last with
    | case1 v =>
      rintro ⟨⟩
      exact htokens.symm
    | case2 => exact nofun
  · rintro rfl
    have hbuilds := Build.foldlM_tokens v [] []
    rw [List.append_nil] at hbuilds
    rw [hbuilds]
    rfl

/-- **A text is read as the value that it holds**, and as no other. -/
theorem ofChars?_eq_some_iff {cs : List Char} {v : Value} :
    Value.ofChars? cs = some v ↔ Holds cs v := by
  rw [Holds, ← scan_eq_some_iff]
  constructor
  · intro h
    obtain ⟨ts, hts, h⟩ := Option.bind_eq_some_iff.1 h
    rw [hts, ofTokens?_eq_some_iff.1 h]
  · intro h
    exact Option.bind_eq_some_iff.2 ⟨v.tokens, h, ofTokens?_eq_some_iff.2 rfl⟩

end PriceFeed.Json
