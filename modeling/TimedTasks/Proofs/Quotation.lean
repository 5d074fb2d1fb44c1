import Mathlib.Tactic.IntervalCases
import TimedTasks.Toml.Strings
import TimedTasks.Toml.StringForm
/-!
A text that was written as a TOML string is read as that text, with what follows it left over. The
plainest form is the one whose reader has the least to undo: each form has the characters that it
must not meet, and a text is only written in a form that can hold it.
-/

namespace TimedTasks.Toml

/-! ## Characters -/

theorem hexValue?_upperHexDigit {n : Nat} (h : n < 16) : hexValue? (upperHexDigit n) = some n := by
  interval_cases n <;> decide

theorem character?_toNat (c : Char) : character? c.toNat = some c := by
  have hv : c.toNat.isValidChar := c.valid
  rw [character?, if_pos hv, Char.ofNat_toNat]

theorem isControl_iff (c : Char) :
    isControl c = true ↔ (c.toNat < 32 ∧ c ≠ '\t' ∧ c ≠ '\n') ∨ c.toNat = 127 := by
  simp [isControl, and_assoc]

theorem isPlain_of_not_isControl {c : Char} (hc : isControl c = false) (hn : c ≠ '\n') :
    isPlain c = true := by
  rw [Bool.eq_false_iff, Ne, isControl_iff] at hc
  simp only [isPlain, Bool.or_eq_true, beq_iff_eq, Bool.and_eq_true, decide_eq_true_eq, bne_iff_ne]
  by_cases ht : c = '\t'
  · exact .inl ht
  · exact .inr (by grind)

theorem codePoint_four {c : Char} (hc : c.toNat < 256) (r : List Char) :
    codePoint 4 ('0' :: '0' :: upperHexDigit (c.toNat / 16) :: upperHexDigit (c.toNat % 16) :: r) =
      some (c, r) := by
  have h0 : hexValue? '0' = some 0 := by decide
  have hn : 16 * (c.toNat / 16) + c.toNat % 16 = c.toNat := Nat.div_add_mod _ _
  simp [codePoint, hexNumber, h0, hexValue?_upperHexDigit (show c.toNat / 16 < 16 by omega),
    hexValue?_upperHexDigit (Nat.mod_lt c.toNat (by decide : 16 > 0)), hn, character?_toNat]

/-- A character is written as it is, or as a backslash and what `escape` reads back. -/
theorem escaped_cases {c : Char} (hn : c ≠ '\n') :
    (escaped c = [c] ∧ isPlain c = true ∧ c ≠ '\\') ∨
    ∃ t, escaped c = '\\' :: t ∧
      ∀ r, escape (t ++ r) = some (c, r) ∧ afterBrokenLine? (t ++ r) = none := by
  unfold escaped
  split
  · rename_i h; subst h
    exact .inr ⟨['b'], rfl, fun r => ⟨rfl, rfl⟩⟩
  split
  · rename_i h; subst h
    exact .inr ⟨['t'], rfl, fun r => ⟨rfl, rfl⟩⟩
  split
  · rename_i h; subst h
    exact .inr ⟨['f'], rfl, fun r => ⟨rfl, rfl⟩⟩
  split
  · rename_i h; subst h
    exact .inr ⟨['r'], rfl, fun r => ⟨rfl, rfl⟩⟩
  split
  · rename_i h; subst h
    exact .inr ⟨['\\'], rfl, fun r => ⟨rfl, rfl⟩⟩
  rename_i hb
  split
  · rename_i hc
    have hlt : c.toNat < 256 := by
      rcases (isControl_iff c).mp hc with h | h <;> omega
    exact .inr ⟨_, rfl, fun r => ⟨codePoint_four hlt r, rfl⟩⟩
  · rename_i hc
    exact .inl ⟨rfl, isPlain_of_not_isControl (Bool.not_eq_true _ ▸ hc) hn, hb⟩

/-! ## Between single quotation marks -/

theorem basic_backslash {s r : List Char} {c : Char} (h : escape s = some (c, r)) :
    basic ('\\' :: s) = (basic r).map fun p => (c :: p.1, p.2) := by
  rw [basic]
  split <;> rename_i h' <;> rw [h] at h' <;> cases h'
  rfl

theorem basic_escaped {c : Char} (hn : c ≠ '\n') (hq : c ≠ '"') (r : List Char) :
    basic (escaped c ++ r) = (basic r).map fun p => (c :: p.1, p.2) := by
  rcases escaped_cases hn with ⟨he, hp, hb⟩ | ⟨t, he, ht⟩
  · rw [he, List.singleton_append, basic, if_pos hp]
    · exact hq
    · exact hb
  · rw [he, List.cons_append, basic_backslash (ht r).1]

theorem basic_basicBody (s rest : List Char) :
    basic (basicBody s ++ '"' :: rest) = some (s, rest) := by
  fun_induction basicBody s with
  | case1 => rw [List.nil_append, basic]
  | case2 s ih => rw [List.cons_append, List.cons_append, basic_backslash (c := '"') rfl, ih]; rfl
  | case3 s ih => rw [List.cons_append, List.cons_append, basic_backslash (c := '\n') rfl, ih]; rfl
  | case4 c s hq hn ih => rw [List.append_assoc, basic_escaped hn hq, ih]; rfl

theorem literal_append {s : List Char} (hs : ∀ c ∈ s, isPlain c = true ∧ c ≠ '\'')
    (rest : List Char) : literal (s ++ '\'' :: rest) = some (s, rest) := by
  induction s with
  | nil => rfl
  | cons c s ih =>
    obtain ⟨hp, hq⟩ := hs c List.mem_cons_self
    rw [List.cons_append, literal, if_pos hp, ih fun d hd => hs d (List.mem_cons_of_mem c hd)]
    · rfl
    · exact hq

/-! ## Between triple quotation marks -/

theorem multiBasic_backslash {s r : List Char} {c : Char} (h : escape s = some (c, r))
    (hb : afterBrokenLine? s = none) :
    multiBasic ('\\' :: s) = (multiBasic r).map fun p => (c :: p.1, p.2) := by
  rw [multiBasic]
  split <;> rename_i h' <;> rw [hb] at h' <;> cases h'
  split <;> rename_i h' <;> rw [h] at h' <;> cases h'
  rfl

/-- A character other than a backslash and a carriage return stands for itself, unless it is the
first of three quotation marks. -/
theorem multiBasic_cons {c : Char} {s : List Char} (hp : isPlain c = true ∨ c = '\n')
    (hb : c ≠ '\\') (hq : c = '"' → ∀ r, s ≠ '"' :: '"' :: r) :
    multiBasic (c :: s) = (multiBasic s).map fun p => (c :: p.1, p.2) := by
  have hr : c ≠ '\r' := by rintro rfl; revert hp; decide
  rw [multiBasic, if_pos (by simpa using hp)]
  · exact fun r h hs => hq h r hs
  · exact hb
  · exact fun r h _ => hr h

theorem multiBasic_escaped {c : Char} (hn : c ≠ '\n') (hq : c ≠ '"') (r : List Char) :
    multiBasic (escaped c ++ r) = (multiBasic r).map fun p => (c :: p.1, p.2) := by
  rcases escaped_cases hn with ⟨he, hp, hb⟩ | ⟨t, he, ht⟩
  · rw [he, List.singleton_append, multiBasic_cons (.inl hp) hb fun h => absurd h hq]
  · rw [he, List.cons_append, multiBasic_backslash (ht r).1 (ht r).2]


theorem closing_of_ne {q : Char} {rest : List Char} (hrest : ∀ r, rest ≠ q :: r) :
    closing q rest = ([], rest) ∧ closing q (q :: rest) = ([q], rest) ∧
    closing q (q :: q :: rest) = ([q, q], rest) := by
  cases rest with
  | nil => simp [closing]
  | cons a rest =>
    have ha : a ≠ q := fun h => hrest rest (h ▸ rfl)
    cases rest <;> simp [closing, ha]

/-- What is written begins with a quotation mark only where the text does, and the mark is not the
third in a row. -/
theorem multiBasicBody_eq_quote {quotes : Nat} {s t r : List Char}
    (h : multiBasicBody quotes s ++ t = '"' :: r) :
    s = [] ∨ ∃ s', s = '"' :: s' ∧ quotes ≠ 2 ∧ multiBasicBody (quotes + 1) s' ++ t = r := by
  fun_cases multiBasicBody quotes s with
  | case1 => exact .inl rfl
  | case2 s h2 => simp [multiBasicBody, h2] at h
  | case3 s hne =>
    rw [multiBasicBody, if_neg hne, List.cons_append] at h
    exact .inr ⟨s, rfl, hne, (List.cons.inj h).2⟩
  | case4 s => simp [multiBasicBody] at h
  | case5 c s hq hn =>
    rw [multiBasicBody.eq_4 _ _ _ hq hn, List.append_assoc] at h
    rcases escaped_cases hn with ⟨he, -, -⟩ | ⟨u, he, -⟩ <;> rw [he] at h
    · exact absurd (List.cons.inj h).1 hq
    · cases (List.cons.inj h).1

/-- The text is read back up to three quotation marks; those at its own end are told from them by
their number. -/
theorem multiBasic_multiBasicBody {rest : List Char} (hrest : ∀ r, rest ≠ '"' :: r) {quotes : Nat}
    (hle : quotes ≤ 2) (s : List Char) :
    multiBasic (multiBasicBody quotes s ++ '"' :: '"' :: '"' :: rest) = some (s, rest) := by
  obtain ⟨hnone, hone, htwo⟩ := closing_of_ne hrest
  fun_induction multiBasicBody quotes s with
  | case1 => rw [List.nil_append, multiBasic, hnone]
  | case2 s ih =>
    rw [List.cons_append, List.cons_append, multiBasic_backslash (c := '"') rfl rfl,
      ih (Nat.zero_le 2)]
    rfl
  | case3 quotes s hne ih =>
    rw [List.cons_append]
    by_cases hs : s = []
    · rw [hs, multiBasicBody, List.nil_append, multiBasic, hone]
    by_cases hs' : s = ['"'] ∧ quotes = 0
    · obtain ⟨rfl, rfl⟩ := hs'
      show multiBasic ('"' :: '"' :: '"' :: '"' :: '"' :: rest) = _
      rw [multiBasic, htwo]
    rw [multiBasic_cons (.inl (by decide)) (by decide) fun _ r h => ?_, ih (by omega)]
    · rfl
    · -- Three in a row would have to be the end of the text.
      obtain ⟨s', rfl, h2, h⟩ := (multiBasicBody_eq_quote h).resolve_left hs
      obtain ⟨s'', rfl, h2', -⟩ := (multiBasicBody_eq_quote h).resolve_left
        fun h0 => hs' ⟨by rw [h0], by omega⟩
      omega
  | case4 _ s ih =>
    rw [List.cons_append, multiBasic_cons (.inr rfl) (by decide) (fun h => by cases h),
      ih (Nat.zero_le 2)]
    rfl
  | case5 quotes c s hq hn ih =>
    rw [List.append_assoc, multiBasic_escaped hn hq, ih (Nat.zero_le 2)]
    rfl

theorem multiLiteral_cons {c : Char} {s : List Char} (hp : isPlain c = true ∨ c = '\n')
    (hq : c = '\'' → ∀ r, s ≠ '\'' :: '\'' :: r) :
    multiLiteral (c :: s) = (multiLiteral s).map fun p => (c :: p.1, p.2) := by
  have hr : c ≠ '\r' := by rintro rfl; revert hp; decide
  rw [multiLiteral, if_pos (by simpa using hp)]
  · exact fun r h hs => hq h r hs
  · exact fun r h _ => hr h

theorem multiLiteral_append {rest : List Char} (hrest : ∀ r, rest ≠ '\'' :: r) {s : List Char}
    (hs : ∀ c ∈ s, isPlain c = true ∨ c = '\n') (ht : hasTriple '\'' s = false) :
    multiLiteral (s ++ '\'' :: '\'' :: '\'' :: rest) = some (s, rest) := by
  obtain ⟨hnone, hone, htwo⟩ := closing_of_ne hrest
  induction s with
  | nil => rw [List.nil_append, multiLiteral, hnone]
  | cons c s ih =>
    have ht' : hasTriple '\'' s = false := by
      match s, ht with
      | [], _ | [_], _ => rfl
      | a :: b :: s, ht => exact (Bool.or_eq_false_iff.mp ht).2
    by_cases hq : c = '\'' ∧ (s = [] ∨ s = ['\''])
    · obtain ⟨rfl, rfl | rfl⟩ := hq
      · rw [List.singleton_append, multiLiteral, hone]
      · show multiLiteral ('\'' :: '\'' :: '\'' :: '\'' :: '\'' :: rest) = _
        rw [multiLiteral, htwo]
    rw [List.cons_append, multiLiteral_cons (hs c List.mem_cons_self) fun hc r h => ?_,
      ih (fun d hd => hs d (List.mem_cons_of_mem c hd)) ht']
    · rfl
    · -- Three in a row would have to be the end of the text, as the text has none.
      rcases s with _ | ⟨a, _ | ⟨b, s⟩⟩
      · exact hq ⟨hc, .inl rfl⟩
      · obtain ⟨rfl, -⟩ := List.cons.inj h
        exact hq ⟨hc, .inr rfl⟩
      · simp only [List.cons_append, List.cons.injEq] at h
        obtain ⟨rfl, rfl, -⟩ := h
        simp [hasTriple, hc] at ht

/-! ## All forms -/

/-- What stands after an opening of three marks is the text, also where it begins with a line
feed. -/
theorem afterOpening_opening {s t : List Char}
    (ht : s.contains '\n' = false → ∀ c r, t = c :: r → c ≠ '\n' ∧ c ≠ '\r') :
    afterOpening (opening s ++ t) = t := by
  unfold opening afterOpening
  split
  · rfl
  · rename_i hn
    rw [List.nil_append]
    cases t with
    | nil => rfl
    | cons c r =>
      obtain ⟨hfeed, hreturn⟩ := ht (Bool.not_eq_true _ ▸ hn) c r rfl
      rw [afterLineEnd?]
      · rfl
      · exact fun _ h => hfeed (List.cons.inj h).1
      · exact fun _ h => hreturn (List.cons.inj h).1

theorem ne_lineEnd_of_isPlain {c : Char} (hc : isPlain c = true) : c ≠ '\n' ∧ c ≠ '\r' := by
  constructor <;> rintro rfl <;> revert hc <;> decide

section Forms

variable {rest : List Char} (hdouble : ∀ r, rest ≠ '"' :: r) (hsingle : ∀ r, rest ≠ '\'' :: r)

include hdouble in
theorem readString_basic (s : List Char) :
    readString (StringForm.basic.write s ++ rest) = some (s, rest) := by
  rw [StringForm.write, List.cons_append, List.cons_append, List.append_assoc,
    List.singleton_append, readString, basic_basicBody]
  fun_cases basicBody s with
  | case1 => exact fun r h => hdouble r (List.cons.inj h).2
  | case2 | case3 => simp
  | case4 c s hq hn =>
    rcases escaped_cases hn with ⟨he, -, -⟩ | ⟨u, he, -⟩ <;> rw [he]
    · exact fun r h => hq (List.cons.inj h).1
    · simp

include hsingle in
theorem readString_literal {s : List Char} (hs : ∀ c ∈ s, isPlain c = true ∧ c ≠ '\'') :
    readString (StringForm.literal.write s ++ rest) = some (s, rest) := by
  rw [StringForm.write, List.cons_append, List.cons_append, List.append_assoc,
    List.singleton_append, readString, literal_append hs]
  intro r h
  cases s with
  | nil => exact hsingle r (List.cons.inj h).2
  | cons c s => exact (hs c List.mem_cons_self).2 (List.cons.inj h).1

include hdouble in
theorem readString_multiBasic (s : List Char) :
    readString (StringForm.multiBasic.write s ++ rest) = some (s, rest) := by
  have hwrite : StringForm.multiBasic.write s ++ rest =
      '"' :: '"' :: '"' :: (opening s ++ (multiBasicBody 0 s ++ '"' :: '"' :: '"' :: rest)) := by
    simp [StringForm.write]
  rw [hwrite, readString, afterOpening_opening fun hfeed => ?_,
    multiBasic_multiBasicBody hdouble (Nat.zero_le 2)]
  fun_cases multiBasicBody 0 s with
  | case1 | case2 | case3 => exact fun c r h => (List.cons.inj h).1 ▸ by decide
  | case4 => simp at hfeed
  | case5 c s hq hn =>
    rcases escaped_cases hn with ⟨he, hp, -⟩ | ⟨u, he, -⟩ <;> rw [he]
    · exact fun d r h => (List.cons.inj h).1 ▸ ne_lineEnd_of_isPlain hp
    · exact fun d r h => (List.cons.inj h).1 ▸ by decide

include hsingle in
theorem readString_multiLiteral {s : List Char} (hs : ∀ c ∈ s, isPlain c = true ∨ c = '\n')
    (ht : hasTriple '\'' s = false) :
    readString (StringForm.multiLiteral.write s ++ rest) = some (s, rest) := by
  have hwrite : StringForm.multiLiteral.write s ++ rest =
      '\'' :: '\'' :: '\'' :: (opening s ++ (s ++ '\'' :: '\'' :: '\'' :: rest)) := by
    simp [StringForm.write]
  rw [hwrite, readString, afterOpening_opening fun hn c r h => ?_,
    multiLiteral_append hsingle hs ht]
  cases s with
  | nil => exact (List.cons.inj h).1 ▸ by decide
  | cons d s =>
    obtain ⟨rfl, -⟩ := List.cons.inj h
    apply ne_lineEnd_of_isPlain
    refine (hs d List.mem_cons_self).resolve_right ?_
    rintro rfl
    simp at hn

include hdouble hsingle in
/-- A text that is written as a string is read back, and what follows it is left, if that is no
quotation mark. -/
theorem readString_writeString (s : List Char) :
    readString (writeString s ++ rest) = some (s, rest) := by
  have plain : s.any isControl = false → ∀ c ∈ s, isPlain c = true ∨ c = '\n' := by
    intro h c hc
    by_cases hn : c = '\n'
    · exact .inr hn
    · exact .inl (isPlain_of_not_isControl (by simpa using (List.any_eq_false.mp h) c hc) hn)
  unfold writeString StringForm.of
  split
  · split
    · exact readString_multiBasic hdouble s
    · exact readString_basic hdouble s
  rename_i hctrl
  have hplain := plain (Bool.not_eq_true _ ▸ hctrl)
  split
  · exact readString_basic hdouble s
  split
  · rename_i h
    simp only [Bool.and_eq_true, Bool.not_eq_true', List.contains_eq_mem, decide_eq_false_iff_not]
      at h
    refine readString_literal hsingle fun c hc => ⟨(hplain c hc).resolve_right ?_, ?_⟩
    · rintro rfl
      exact h.1 hc
    · rintro rfl
      exact h.2 hc
  split
  · exact readString_multiBasic hdouble s
  split
  · rename_i ht
    exact readString_multiLiteral hsingle hplain (by simpa using ht)
  split
  · exact readString_multiBasic hdouble s
  · exact readString_basic hdouble s

end Forms

end TimedTasks.Toml
