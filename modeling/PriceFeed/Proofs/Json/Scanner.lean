/-
  PriceFeed — the scanner reads what the grammar spells.

  The scanner's classes of characters are those of the grammar (`isBlank_iff`,
  `isNumberPart_iff`, `hexDigit?_eq_some`, `escaped?_eq_some`).  `Scanner.run` is the scanner
  on the rest of a text.  For each mode there is a lemma that takes the run to the end of what
  the scanner is in the middle of: a number or a word (`run_number`, `run_word`), what stands
  between quotes (`run_text_append`, and for the other way round `exists_digit_of_run_code`,
  `exists_escape` and `exists_quoted`).

  * `scan_eq_some_iff`: the tokens of a text are those that it spells, and no others.
-/
import PriceFeed.Proofs.Json.Number

namespace PriceFeed.Json

namespace Scanner

/-! ## Characters -/

theorem isBlank_iff {c : Char} : isBlank c = true ↔ Blank c := by
  constructor
  · intro h
    simp only [isBlank, Bool.or_eq_true, beq_iff_eq] at h
    rcases h with ((rfl | rfl) | rfl) | rfl
    exacts [.space, .tab, .newline, .carriageReturn]
  · rintro ⟨⟩ <;> rfl

theorem isNumberPart_iff {c : Char} : isNumberPart c = true ↔ Number.Part c := by
  simp [isNumberPart, Number.Part, or_assoc]

theorem escaped?_eq_some {c : Char} {u : UInt16} : escaped? c = some u ↔ Escape c u := by
  constructor
  · fun_cases escaped? c
    case case9 => exact nofun
    all_goals
      rintro ⟨⟩
      constructor
  · rintro ⟨⟩ <;> rfl

/-- A character between two others is so many after the first. -/
theorem exists_eq_ofNat_add {c first last : Char} (h : first ≤ c ∧ c ≤ last) :
    ∃ i, i ≤ last.toNat - first.toNat ∧ c.toNat - first.toNat = i ∧
      c = Char.ofNat (first.toNat + i) := by
  simp only [Char.le_def, UInt32.le_iff_toNat_le, Char.toNat_val] at h
  refine ⟨c.toNat - first.toNat, Nat.sub_le_sub_right h.2 _, rfl, ?_⟩
  rw [Nat.add_sub_cancel' h.1, Char.ofNat_toNat]

/-- The letters that are digits from ten on. -/
theorem letter_eq_digitChar {i : Nat} (hi : i ≤ 5) :
    Char.ofNat ('a'.toNat + i) = Nat.digitChar (i + 10) ∧
      Char.ofNat ('A'.toNat + i) = (Nat.digitChar (i + 10)).toUpper := by
  interval_cases i <;> exact ⟨rfl, rfl⟩

theorem hexDigit?_eq_some {c : Char} {v : Nat} : hexDigit? c = some v ↔ HexDigit c v := by
  constructor
  · fun_cases hexDigit? c with
    | case1 hdigit =>
      rintro ⟨⟩
      obtain ⟨hlt, hc⟩ := Digits.digitChar_of_isDigit hdigit
      exact ⟨by omega, .inl hc.symm⟩
    | case2 _ hsmall =>
      rintro ⟨⟩
      obtain ⟨i, hi, hsub, hc⟩ := exists_eq_ofNat_add hsmall
      have hi : i ≤ 5 := hi
      rw [hsub, hc]
      exact ⟨by omega, .inl (letter_eq_digitChar hi).1⟩
    | case3 _ _ hcapital =>
      rintro ⟨⟩
      obtain ⟨i, hi, hsub, hc⟩ := exists_eq_ofNat_add hcapital
      have hi : i ≤ 5 := hi
      rw [hsub, hc]
      exact ⟨by omega, .inr (letter_eq_digitChar hi).2⟩
    | case4 => exact nofun
  · rintro ⟨hlt, rfl | rfl⟩ <;> interval_cases v <;> rfl

/-! ## Runs -/

/-- The tokens of the rest of a text, in reverse and before them those that are there already. -/
def run (s : Scanner) (cs : List Char) : Option (List Token) :=
  (cs.foldlM step s).bind finish

theorem run_nil (s : Scanner) : s.run [] = s.finish :=
  rfl

theorem run_cons (s : Scanner) (c : Char) (cs : List Char) :
    s.run (c :: cs) = (s.step c).bind fun s' => s'.run cs := by
  rw [run, List.foldlM_cons]
  exact Option.bind_assoc ..

/-! ## Numbers and words -/

section
variable {acc : List Token}

/-- A mode that goes on while `p` holds, and reads what it has gone through with `close`. -/
theorem run_of_goesOn (mode : List Char → Mode) (p : Char → Bool)
    (close : List Char → Option Token)
    (hfinish : ∀ read, finish ⟨mode read, acc⟩ = (close read.reverse).map (· :: acc))
    (hstep : ∀ read c, step ⟨mode read, acc⟩ c =
      if p c then some ⟨mode (c :: read), acc⟩
      else (finish ⟨mode read, acc⟩).bind fun tokens => start tokens c)
    (read cs : List Char) :
    run ⟨mode read, acc⟩ cs = (close (read.reverse ++ cs.takeWhile p)).bind fun t =>
      run ⟨.between, t :: acc⟩ (cs.dropWhile p) := by
  induction cs generalizing read with
  | nil =>
    rw [run_nil, hfinish, List.takeWhile_nil, List.append_nil, List.dropWhile_nil]
    cases close read.reverse <;> rfl
  | cons c cs ih =>
    rw [run_cons, hstep]
    cases hc : p c with
    | true =>
      rw [if_pos rfl, Option.bind_some, ih, List.takeWhile_cons_of_pos hc,
        List.dropWhile_cons_of_pos hc, List.reverse_cons, List.append_assoc]
      rfl
    | false =>
      have hc' : ¬ p c = true := by rw [hc]; exact Bool.false_ne_true
      rw [if_neg Bool.false_ne_true, hfinish, List.takeWhile_cons_of_neg hc',
        List.dropWhile_cons_of_neg hc', List.append_nil]
      cases close read.reverse with
      | none => rfl
      | some t => exact (run_cons ⟨.between, t :: acc⟩ c cs).symm

theorem run_number (read cs : List Char) :
    run ⟨.number read, acc⟩ cs =
      (Number.ofChars? (read.reverse ++ cs.takeWhile isNumberPart)).bind fun n =>
        run ⟨.between, .number n :: acc⟩ (cs.dropWhile isNumberPart) := by
  rw [run_of_goesOn .number isNumberPart (fun w => (Number.ofChars? w).map .number) _
    fun _ _ => rfl]
  · cases Number.ofChars? (read.reverse ++ cs.takeWhile isNumberPart) <;> rfl
  · intro read
    rw [Option.map_map]
    rfl

theorem run_word (read cs : List Char) :
    run ⟨.word read, acc⟩ cs = (word? (read.reverse ++ cs.takeWhile Char.isLower)).bind fun t =>
      run ⟨.between, t :: acc⟩ (cs.dropWhile Char.isLower) :=
  run_of_goesOn .word Char.isLower word? (fun _ => rfl) (fun _ _ => rfl) read cs

end

/-! ## Texts -/

section
variable {acc out : List Token} {us : Units}

theorem step_code (left value : Nat) (c : Char) :
    step ⟨.code us (left + 1) value, acc⟩ c = (hexDigit? c).map fun v =>
      if left = 0 then ⟨.text (UInt16.ofNat (16 * value + v) :: us), acc⟩
      else ⟨.code us left (16 * value + v), acc⟩ := by
  cases left <;> rfl

theorem run_code_cons {left value v : Nat} {c : Char} (cs : List Char) (h : HexDigit c v) :
    run ⟨.code us (left + 1) value, acc⟩ (c :: cs) =
      if left = 0 then run ⟨.text (UInt16.ofNat (16 * value + v) :: us), acc⟩ cs
      else run ⟨.code us left (16 * value + v), acc⟩ cs := by
  rw [run_cons, step_code, hexDigit?_eq_some.2 h, Option.map_some, Option.bind_some]
  split <;> rfl

/-- Four digits, read one after another and by their places. -/
theorem value_of_digits (i j k l : Nat) : 16 * (16 * (16 * (16 * 0 + i) + j) + k) + l =
    0x1000 * i + 0x100 * j + 0x10 * k + l := by
  omega

/-- The code of a unit takes one more digit as long as it lacks any. -/
theorem exists_digit_of_run_code {left value : Nat} {cs : List Char}
    (h : run ⟨.code us (left + 1) value, acc⟩ cs = some out) :
    ∃ c v rest, cs = c :: rest ∧ HexDigit c v ∧
      (if left = 0 then run ⟨.text (UInt16.ofNat (16 * value + v) :: us), acc⟩ rest
        else run ⟨.code us left (16 * value + v), acc⟩ rest) = some out := by
  cases cs with
  | nil => exact nomatch h
  | cons c cs =>
    cases hdigit : hexDigit? c with
    | none =>
      rw [run_cons, step_code, hdigit] at h
      exact nomatch h
    | some v =>
      have hv := hexDigit?_eq_some.1 hdigit
      rw [run_code_cons cs hv] at h
      exact ⟨c, v, cs, rfl, hv, h⟩

/-- What stands between quotes is read as the units that it stands for. -/
theorem run_text_append {vs : Units} {w : List Char} (h : Quoted vs w) (us : Units)
    (cs : List Char) :
    run ⟨.text us, acc⟩ (w ++ cs) = run ⟨.text (vs.reverse ++ us), acc⟩ cs := by
  induction h generalizing us with
  | nil => rfl
  | plain hquote hslash hcontrol _ ih =>
    rw [List.cons_append, run_cons]
    simp only [step, hquote, hslash, Nat.not_lt.2 hcontrol, if_false]
    rw [Option.bind_some, ih, List.reverse_append, List.append_assoc]
  | @escape c u vs w hescape _ ih =>
    have hu : c ≠ 'u' := by rintro rfl; exact nomatch hescape
    rw [List.cons_append, List.cons_append, run_cons]
    show run ⟨.escape us, acc⟩ (c :: (w ++ cs)) = _
    rw [run_cons]
    simp only [step, hu, if_false, escaped?_eq_some.2 hescape, Option.map_some, Option.bind_some]
    rw [ih, List.reverse_cons, List.append_assoc]
    rfl
  | @code a b c d i j k l vs w ha hb hc hd _ ih =>
    show run ⟨.code us 4 0, acc⟩ (a :: b :: c :: d :: (w ++ cs)) = _
    rw [run_code_cons _ ha, if_neg (by decide), run_code_cons _ hb, if_neg (by decide),
      run_code_cons _ hc, if_neg (by decide), run_code_cons _ hd, if_pos rfl, value_of_digits, ih,
      List.reverse_cons, List.append_assoc]
    rfl

/-- After a backslash stands what may stand there, and one unit is read. -/
theorem exists_escape {cs : List Char} (h : run ⟨.escape us, acc⟩ cs = some out) :
    ∃ u w rest, (∀ {vs w'}, Quoted vs w' → Quoted (u :: vs) ('\\' :: (w ++ w'))) ∧
      cs = w ++ rest ∧ run ⟨.text (u :: us), acc⟩ rest = some out := by
  cases cs with
  | nil => exact nomatch h
  | cons c cs =>
    rw [run_cons] at h
    simp only [step] at h
    split at h
    · next hu =>
      subst hu
      obtain ⟨a, i, _, rfl, ha, h⟩ := exists_digit_of_run_code h
      obtain ⟨b, j, _, rfl, hb, h⟩ := exists_digit_of_run_code h
      obtain ⟨c, k, _, rfl, hc, h⟩ := exists_digit_of_run_code h
      obtain ⟨d, l, rest, rfl, hd, h⟩ := exists_digit_of_run_code h
      rw [if_pos rfl, value_of_digits] at h
      exact ⟨_, ['u', a, b, c, d], rest, fun hq => .code ha hb hc hd hq, rfl, h⟩
    · rw [Option.bind_eq_some_iff] at h
      obtain ⟨_, hstep, h⟩ := h
      obtain ⟨u, hu, rfl⟩ := Option.map_eq_some_iff.1 hstep
      exact ⟨u, [c], cs, fun hq => .escape (escaped?_eq_some.1 hu) hq, rfl, h⟩

/-- A text that is read to its end has a closing quote, and before it the units that are read. -/
theorem exists_quoted {cs : List Char} (h : run ⟨.text us, acc⟩ cs = some out) :
    ∃ vs w rest, Quoted vs w ∧ cs = w ++ '"' :: rest ∧
      run ⟨.between, .text (us.reverse ++ vs) :: acc⟩ rest = some out := by
  induction hn : cs.length using Nat.strongRecOn generalizing us cs with
  | ind n ih =>
    subst hn
    cases cs with
    | nil => exact nomatch h
    | cons c cs =>
      rw [run_cons] at h
      simp only [step] at h
      split at h
      · next hquote =>
        subst hquote
        exact ⟨[], [], cs, .nil, rfl, by rwa [List.append_nil]⟩
      split at h
      · next hslash =>
        subst hslash
        obtain ⟨u, w, rest, hescape, rfl, hnext⟩ := exists_escape h
        obtain ⟨vs, w', rest, hq, rfl, hrest⟩ := ih rest.length (by simp) hnext rfl
        refine ⟨u :: vs, '\\' :: (w ++ w'), rest, hescape hq, by simp, ?_⟩
        rwa [List.reverse_cons, List.append_assoc] at hrest
      split at h
      · exact nomatch h
      · next hquote hslash hcontrol =>
        obtain ⟨vs, w, rest, hq, rfl, hrest⟩ := ih cs.length (Nat.lt_succ_self _) h rfl
        refine ⟨unitsOfChar c ++ vs, c :: w, rest, .plain hquote hslash (Nat.not_lt.1 hcontrol) hq,
          rfl, ?_⟩
        rwa [List.reverse_append, List.reverse_reverse, List.append_assoc] at hrest

end

/-! ## Tokens -/

section
variable {acc out : List Token}

theorem run_between_cons (c : Char) (cs : List Char) :
    run ⟨.between, acc⟩ (c :: cs) = (start acc c).bind fun s => s.run cs :=
  run_cons ..

theorem lexeme_of_word? {cs : List Char} {t : Token} (h : word? cs = some t) :
    Lexeme t cs ∧ ∀ c, t.GoesOn c → c.isLower = true := by
  unfold word? at h
  split at h
  · next hcs => subst hcs; cases h; exact ⟨.null, fun _ => id⟩
  split at h
  · next hcs => subst hcs; cases h; exact ⟨.true, fun _ => id⟩
  split at h
  · next hcs => subst hcs; cases h; exact ⟨.false, fun _ => id⟩
  · exact nomatch h

theorem run_word_append {c : Char} {w cs : List Char} {t : Token}
    (hstart : start acc c = some ⟨.word [c], acc⟩) (hword : word? (c :: w) = some t)
    (hlower : ∀ c' ∈ w, c'.isLower = true) (hend : ∀ c' ∈ cs.head?, ¬ c'.isLower = true) :
    run ⟨.between, acc⟩ (c :: w ++ cs) = run ⟨.between, t :: acc⟩ cs := by
  obtain ⟨htake, hdrop⟩ := takeWhile_dropWhile_append hlower fun c' hc' =>
    Bool.eq_false_iff.2 (hend c' hc')
  rw [List.cons_append, run_between_cons, hstart, Option.bind_some, run_word, htake, hdrop]
  show (word? (c :: w)).bind _ = _
  rw [hword, Option.bind_some]

theorem start_of_number {c : Char} (h : (c == '-' || c.isDigit) = true) :
    start acc c = some ⟨.number [c], acc⟩ := by
  have hblank : ¬ isBlank c = true := by
    rw [isBlank_iff]
    rintro ⟨⟩ <;> exact nomatch h
  unfold start
  rw [if_neg hblank, if_pos h]

/-- **A token takes the scanner to its end**, and is put before those that are there. -/
theorem run_lexeme {t : Token} {w cs : List Char} (h : Lexeme t w)
    (hend : ∀ c ∈ cs.head?, ¬ t.GoesOn c) :
    run ⟨.between, acc⟩ (w ++ cs) = run ⟨.between, t :: acc⟩ cs := by
  cases h with
  | openArray | closeArray | openObject | closeObject | comma | colon => rfl
  | null | true | false => exact run_word_append rfl rfl (List.all_eq_true.1 rfl) hend
  | @number n htail =>
    obtain ⟨c, w, hn, hc⟩ := n.exists_toChars_eq
    have hparts : ∀ c ∈ n.toChars, isNumberPart c = true := fun c hc =>
      isNumberPart_iff.2 (Number.part_of_mem_toChars htail c hc)
    have hend : ∀ c ∈ cs.head?, isNumberPart c = false := fun c hc =>
      Bool.eq_false_iff.2 fun hpart => hend c hc (isNumberPart_iff.1 hpart)
    rw [hn, List.forall_mem_cons] at hparts
    obtain ⟨htake, hdrop⟩ := takeWhile_dropWhile_append hparts.2 hend
    rw [hn, List.cons_append, run_between_cons, start_of_number hc, Option.bind_some, run_number,
      htake, hdrop]
    show (Number.ofChars? (c :: w)).bind _ = _
    rw [Number.ofChars?_eq_some.2 ⟨htail, hn⟩, Option.bind_some]
  | @text us w hq =>
    rw [List.append_assoc, List.cons_append]
    show run ⟨.text [], acc⟩ (w ++ ('"' :: cs)) = _
    rw [run_text_append hq, List.append_nil]
    show run ⟨.between, .text us.reverse.reverse :: acc⟩ cs = _
    rw [List.reverse_reverse]

/-- Where a run has taken a token from the front of a text, the rest is spelled by the others. -/
theorem exists_spells_cons {t : Token} {w cs : List Char} (h : Lexeme t w)
    (hend : ∀ c ∈ cs.head?, ¬ t.GoesOn c)
    (hcs : ∃ ts, Spells ts cs ∧ out = ts.reverse ++ t :: acc) :
    ∃ ts, Spells ts (w ++ cs) ∧ out = ts.reverse ++ acc := by
  obtain ⟨ts, hts, rfl⟩ := hcs
  refine ⟨t :: ts, .token h hend hts, ?_⟩
  rw [List.reverse_cons, List.append_assoc]
  rfl

theorem head?_dropWhile_eq_false {p : Char → Bool} {cs : List Char} :
    ∀ c ∈ (cs.dropWhile p).head?, p c = false := by
  intro c hc
  have hnot := List.head?_dropWhile_not p cs
  rw [Option.mem_def.1 hc] at hnot
  simpa using hnot

/-- The same where the scanner goes on as long as `p` holds, and `p` holds of all characters that
    go on with the token. -/
theorem exists_spells_takeWhile {t : Token} {p : Char → Bool} {c : Char} {cs : List Char}
    (h : Lexeme t (c :: cs.takeWhile p)) (hp : ∀ c, t.GoesOn c → p c = true)
    (hcs : ∃ ts, Spells ts (cs.dropWhile p) ∧ out = ts.reverse ++ t :: acc) :
    ∃ ts, Spells ts (c :: cs) ∧ out = ts.reverse ++ acc := by
  have hend : ∀ c ∈ (cs.dropWhile p).head?, ¬ t.GoesOn c := fun c hc hgoesOn =>
    Bool.eq_false_iff.1 (head?_dropWhile_eq_false c hc) (hp c hgoesOn)
  have hspells := exists_spells_cons h hend hcs
  rwa [List.cons_append, List.takeWhile_append_dropWhile] at hspells

theorem run_of_spells {ts : List Token} {cs : List Char} (h : Spells ts cs) :
    run ⟨.between, acc⟩ cs = some (ts.reverse ++ acc) := by
  induction h generalizing acc with
  | nil => rfl
  | @blank c ts cs hblank _ ih =>
    have hstart : start acc c = some ⟨.between, acc⟩ := by
      unfold start
      rw [if_pos (isBlank_iff.2 hblank)]
    rw [run_between_cons, hstart]
    exact ih
  | token hlexeme hend _ ih =>
    rw [run_lexeme hlexeme hend, ih, List.reverse_cons, List.append_assoc]
    rfl

theorem exists_spells_of_run {cs : List Char} (h : run ⟨.between, acc⟩ cs = some out) :
    ∃ ts, Spells ts cs ∧ out = ts.reverse ++ acc := by
  -- on the length of the text, since a token takes more than one character of it
  induction hn : cs.length using Nat.strongRecOn generalizing acc cs with
  | ind n ih =>
    subst hn
    cases cs with
    | nil => exact ⟨[], .nil, (Option.some.inj h).symm⟩
    | cons c cs =>
      have hrest : ∀ {t rest}, rest.length ≤ cs.length → run ⟨.between, t :: acc⟩ rest = some out →
          ∃ ts, Spells ts rest ∧ out = ts.reverse ++ t :: acc :=
        fun hlength hrun => ih _ (Nat.lt_succ_of_le hlength) hrun rfl
      rw [run_between_cons] at h
      unfold start at h
      split at h
      · next hblank =>
        obtain ⟨ts, hts, hout⟩ := ih cs.length (Nat.lt_succ_self _) h rfl
        exact ⟨ts, .blank (isBlank_iff.1 hblank) hts, hout⟩
      split at h
      · rw [Option.bind_some, run_number, Option.bind_eq_some_iff] at h
        obtain ⟨n, hn, h⟩ := h
        obtain ⟨htail, hn⟩ := Number.ofChars?_eq_some.1 hn
        have hlexeme := Lexeme.number htail
        rw [hn] at hlexeme
        exact exists_spells_takeWhile hlexeme (fun _ => isNumberPart_iff.2)
          (hrest (cs.dropWhile_sublist _).length_le h)
      split at h
      · rw [Option.bind_some, run_word, Option.bind_eq_some_iff] at h
        obtain ⟨t, ht, h⟩ := h
        obtain ⟨hlexeme, hgoesOn⟩ := lexeme_of_word? ht
        exact exists_spells_takeWhile hlexeme hgoesOn
          (hrest (cs.dropWhile_sublist _).length_le h)
      split at h
      · exact exists_spells_cons .openArray (fun _ _ => id) (hrest le_rfl h)
      · exact exists_spells_cons .closeArray (fun _ _ => id) (hrest le_rfl h)
      · exact exists_spells_cons .openObject (fun _ _ => id) (hrest le_rfl h)
      · exact exists_spells_cons .closeObject (fun _ _ => id) (hrest le_rfl h)
      · exact exists_spells_cons .comma (fun _ _ => id) (hrest le_rfl h)
      · exact exists_spells_cons .colon (fun _ _ => id) (hrest le_rfl h)
      · obtain ⟨us, w, rest, hq, rfl, hrun⟩ := exists_quoted h
        have hlength : rest.length ≤ (w ++ '"' :: rest).length := by simp; omega
        have hspells := exists_spells_cons (.text hq) (fun _ _ => id) (hrest hlength hrun)
        rw [List.append_assoc] at hspells
        exact hspells
      · exact nomatch h

/-- **The scanner reads the tokens that a text spells**, and no others. -/
theorem run_eq_some_iff {cs : List Char} :
    run ⟨.between, acc⟩ cs = some out ↔ ∃ ts, Spells ts cs ∧ out = ts.reverse ++ acc := by
  constructor
  · exact exists_spells_of_run
  · rintro ⟨ts, h, rfl⟩
    exact run_of_spells h

end

end Scanner

/-- **The tokens of a text are those that it spells**, and no others. -/
theorem scan_eq_some_iff {cs : List Char} {ts : List Token} :
    Token.scan cs = some ts ↔ Spells ts cs := by
  have hrun : Token.scan cs = (Scanner.run ⟨.between, []⟩ cs).map List.reverse := by
    unfold Token.scan Scanner.run
    cases cs.foldlM Scanner.step ⟨.between, []⟩ with
    | none => rfl
    | some last =>
      show (last.finish >>= fun tokens => pure tokens.reverse) = last.finish.map List.reverse
      cases last.finish <;> rfl
  rw [hrun, Option.map_eq_some_iff]
  constructor
  · rintro ⟨out, h, rfl⟩
    obtain ⟨ts, hts, rfl⟩ := Scanner.run_eq_some_iff.1 h
    rwa [List.append_nil, List.reverse_reverse]
  · intro h
    exact ⟨ts.reverse, Scanner.run_eq_some_iff.2 ⟨ts, h, (List.append_nil _).symm⟩,
      List.reverse_reverse ts⟩

end PriceFeed.Json
