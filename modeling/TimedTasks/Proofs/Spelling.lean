import Mathlib.Data.List.Forall2
import Mathlib.Data.List.TakeWhile
import TimedTasks.Time.UnitName
/-!
How a unit of time may be spelled. A text names at most one unit, by what is left of it between the
white space at its ends, whatever the case of the letters `A` to `Z`; the names of the units are
told apart as they stand, so it does not matter in which order the units are looked through. A text
that names none is reported as it came.
-/

namespace TimedTasks

/-! ## Between the white space -/

namespace Text

/-- Whether `core` is what is left of a text without the white space at its ends. -/
structure IsTrimmed (s core : List Char) : Prop where
  around : ∃ before after, s = before ++ core ++ after ∧
    allBlank before = true ∧ allBlank after = true
  starts : ∀ c ∈ core.head?, isBlank c = false
  ends : ∀ c ∈ core.getLast?, isBlank c = false

variable {s core before after : List Char}

theorem dropWhile_blank_append (h : allBlank before = true) (s : List Char) :
    (before ++ s).dropWhile isBlank = s.dropWhile isBlank :=
  List.dropWhile_append_of_pos (List.all_eq_true.mp h)

theorem dropWhile_blank_eq_self (h : ∀ c ∈ s.head?, isBlank c = false) :
    s.dropWhile isBlank = s := by
  cases s with
  | nil => rfl
  | cons c s => exact List.dropWhile_cons_of_neg (by simp [h c rfl])

theorem head?_dropWhile_blank (s : List Char) :
    ∀ c ∈ (s.dropWhile isBlank).head?, isBlank c = false := by
  intro c hc
  have h := List.head?_dropWhile_not isBlank s
  rw [Option.mem_def.mp hc] at h
  exact h

theorem IsTrimmed.trim_eq (h : IsTrimmed s core) : trim s = core := by
  obtain ⟨before, after, rfl, hb, ha⟩ := h.around
  rw [trim, List.append_assoc, dropWhile_blank_append hb]
  cases core with
  | nil =>
    rw [List.nil_append, List.dropWhile_eq_nil_iff.mpr (List.all_eq_true.mp ha)]
    rfl
  | cons c core =>
    have hends : ∀ d ∈ (c :: core).reverse.head?, isBlank d = false := by
      rw [List.head?_reverse]
      exact h.ends
    have ha' : allBlank after.reverse = true := by rw [allBlank, List.all_reverse]; exact ha
    rw [dropWhile_blank_eq_self (s := c :: core ++ after) h.starts, List.reverse_append,
      dropWhile_blank_append ha', dropWhile_blank_eq_self hends, List.reverse_reverse]

theorem isTrimmed_trim (s : List Char) : IsTrimmed s (trim s) := by
  obtain ⟨after, hafter, ha⟩ : ∃ after, s.dropWhile isBlank = trim s ++ after ∧
      allBlank after = true := by
    refine ⟨((s.dropWhile isBlank).reverse.takeWhile isBlank).reverse, ?_, ?_⟩
    · rw [trim, ← List.reverse_append, List.takeWhile_append_dropWhile, List.reverse_reverse]
    · rw [allBlank, List.all_reverse, List.all_takeWhile]
  refine ⟨⟨s.takeWhile isBlank, after, ?_, List.all_takeWhile, ha⟩, fun c hc => ?_, fun c hc => ?_⟩
  · rw [List.append_assoc, ← hafter, List.takeWhile_append_dropWhile]
  · refine head?_dropWhile_blank s c ?_
    rw [hafter, List.head?_append, Option.mem_def.mp hc]
    rfl
  · rw [trim, List.getLast?_reverse] at hc
    exact head?_dropWhile_blank _ c hc

theorem isTrimmed_iff : IsTrimmed s core ↔ core = trim s :=
  ⟨fun h => h.trim_eq.symm, fun h => h ▸ isTrimmed_trim s⟩

/-- A text without any white space is all that is left when some is put around it. -/
theorem isTrimmed_of_no_blanks (hb : allBlank before = true) (ha : allBlank after = true)
    (h : ∀ c ∈ core, isBlank c = false) : IsTrimmed (before ++ core ++ after) core where
  around := ⟨before, after, rfl, hb, ha⟩
  starts c hc := h c (List.mem_of_mem_head? hc)
  ends c hc := h c (List.mem_of_getLast? hc)

/-! ## Capitals -/

/-- Whether a text is a word of which some letters are written as capitals. -/
def IsMixedCase (text word : List Char) : Prop :=
  List.Forall₂ (fun c d => c = d ∨ c = d.toUpper) text word

instance (text word : List Char) : Decidable (IsMixedCase text word) :=
  inferInstanceAs (Decidable (List.Forall₂ _ text word))

variable {text word : List Char}

/-- A small letter and its capital are lowered to the small letter, and neither is white space. -/
theorem small_or_capital {c d : Char} (hd : d.isLower = true) (h : c = d ∨ c = d.toUpper) :
    c.toLower = d ∧ isBlank c = false := by
  have letters : ∀ n < 26, (Char.ofNat (97 + n)).toLower = Char.ofNat (97 + n) ∧
      (Char.ofNat (97 + n)).toUpper.toLower = Char.ofNat (97 + n) ∧
      isBlank (Char.ofNat (97 + n)) = false ∧ isBlank (Char.ofNat (97 + n)).toUpper = false := by
    decide
  have hrange : 97 ≤ d.toNat ∧ d.toNat ≤ 122 := by
    have hd' : (decide (d.val ≥ 'a'.val) && decide (d.val ≤ 'z'.val)) = true := hd
    simpa [UInt32.le_iff_toNat_le] using hd'
  have hfacts := letters (d.toNat - 97) (by omega)
  rw [Nat.add_sub_cancel' hrange.1, Char.ofNat_toNat] at hfacts
  obtain ⟨hlower, hcapital, hblank, hcapital'⟩ := hfacts
  rcases h with rfl | rfl
  · exact ⟨hlower, hblank⟩
  · exact ⟨hcapital, hcapital'⟩

theorem IsMixedCase.lowered (h : IsMixedCase text word) (hw : ∀ c ∈ word, c.isLower = true) :
    text.map Char.toLower = word := by
  induction h with
  | nil => rfl
  | cons hc _ ih =>
    obtain ⟨hd, hrest⟩ := List.forall_mem_cons.mp hw
    rw [List.map_cons, (small_or_capital hd hc).1, ih hrest]

theorem IsMixedCase.no_blanks (h : IsMixedCase text word) (hw : ∀ c ∈ word, c.isLower = true) :
    ∀ c ∈ text, isBlank c = false := by
  induction h with
  | nil => simp
  | cons hc _ ih =>
    obtain ⟨hd, hrest⟩ := List.forall_mem_cons.mp hw
    exact List.forall_mem_cons.mpr ⟨(small_or_capital hd hc).2, ih hrest⟩

end Text

/-! ## The units -/

namespace TimeUnit

open Text

/-- Whether a text spells a unit: without the white space at its ends, and with the letters `A` to
`Z` lowered, it is the name or the suffix. -/
def IsSpelled (s : String) (u : TimeUnit) : Prop :=
  ∃ core, IsTrimmed s.toList core ∧
    (core.map Char.toLower = u.name.toList ∨ core.map Char.toLower = u.suffix.toList)

variable {u v : TimeUnit} {s word : String} {t before core after : List Char}
  {units : List TimeUnit}

theorem isNamed_iff : isNamed t u = true ↔ t = u.name.toList ∨ t = u.suffix.toList := by
  rw [isNamed, Bool.or_eq_true, beq_iff_eq, beq_iff_eq]
  exact or_congr eq_comm eq_comm

theorem isSpelled_iff : IsSpelled s u ↔ isNamed (normalized s) u = true := by
  simp only [IsSpelled, isTrimmed_iff, exists_eq_left, isNamed_iff, normalized]

/-- No name or suffix stands for two units. -/
theorem unit_unique (hu : isNamed t u = true) (hv : isNamed t v = true) : u = v := by
  have apart : ∀ u ∈ all, ∀ v ∈ all, ∀ x ∈ [u.name.toList, u.suffix.toList],
      isNamed x v = true → u = v := by
    decide
  refine apart u (mem_all u) v (mem_all v) t ?_ hv
  simpa using isNamed_iff.mp hu

theorem isLower_of_mem (hw : word = u.name ∨ word = u.suffix) :
    ∀ c ∈ word.toList, c.isLower = true := by
  have lower : u.name.toList.all Char.isLower = true ∧ u.suffix.toList.all Char.isLower = true := by
    cases u <;> decide
  rcases hw with rfl | rfl
  · exact List.all_eq_true.mp lower.1
  · exact List.all_eq_true.mp lower.2

/-- A search for what only one unit can be finds it, in whatever order the units are. -/
theorem find?_eq_some_iff {p : TimeUnit → Bool} (hall : ∀ u, u ∈ units)
    (hone : ∀ u v, p u = true → p v = true → u = v) : units.find? p = some u ↔ p u = true := by
  constructor
  · exact List.find?_some
  · intro hu
    obtain ⟨v, hv⟩ := Option.isSome_iff_exists.mp (List.find?_isSome.mpr ⟨u, hall u, hu⟩)
    rw [hv, hone u v hu (List.find?_some hv)]

theorem find?_isNamed (hall : ∀ u, u ∈ units) :
    units.find? (isNamed t) = some u ↔ isNamed t u = true :=
  find?_eq_some_iff hall fun _ _ => unit_unique

/-- The serialised name of a unit is its full name. -/
theorem ofEncoded?_name_iff : ofEncoded? (.name word) = some u ↔ word = u.name := by
  have hone : ∀ u v : TimeUnit, (u.name == word) = true → (v.name == word) = true → u = v := by
    intro u v hu hv
    rw [beq_iff_eq] at hu hv
    exact unit_unique (t := word.toList) (isNamed_iff.mpr (.inl (by rw [hu])))
      (isNamed_iff.mpr (.inl (by rw [hv])))
  rw [ofEncoded?, ofName?, find?_eq_some_iff mem_all hone, beq_iff_eq, eq_comm]

theorem ofText?_eq_ok_iff : ofText? s = .ok u ↔ IsSpelled s u := by
  rw [isSpelled_iff, ← find?_isNamed mem_all, ofText?]
  cases all.find? (isNamed (normalized s)) <;> simp

theorem ofText?_eq_error_iff {f : Fault} : ofText? s = .error f ↔
    (∀ u, ¬ IsSpelled s u) ∧ f = .validation "time_unit" "unknown time unit" (some s) := by
  simp only [isSpelled_iff, ← find?_isNamed mem_all]
  rw [ofText?]
  cases all.find? (isNamed (normalized s)) <;> simp [eq_comm]

/-- A name or a suffix, with capitals in it and white space around it, still spells its unit. -/
theorem isSpelled_of_mixedCase (hw : word = u.name ∨ word = u.suffix)
    (hs : s.toList = before ++ core ++ after) (hb : allBlank before = true)
    (ha : allBlank after = true) (hc : IsMixedCase core word.toList) : IsSpelled s u := by
  have hlower := isLower_of_mem hw
  refine ⟨core, hs ▸ isTrimmed_of_no_blanks hb ha (hc.no_blanks hlower), ?_⟩
  rw [hc.lowered hlower]
  rcases hw with rfl | rfl
  · exact .inl rfl
  · exact .inr rfl

/-- Reading a unit: a text is read as a unit exactly if it spells that unit. None spells two, so
another order of the units gives the same; whatever a unit is called, be it the full name, the
suffix or the serialised form, is read as that unit again, with capitals and white space added at
will; and a text that spells no unit is refused, with the text itself in the fault. -/
theorem ofText?_reads_spellings (s : String) :
    (∀ u, ofText? s = .ok u ↔ IsSpelled s u) ∧
    (∀ u v, IsSpelled s u → IsSpelled s v → u = v) ∧
    (∀ units : List TimeUnit, (∀ u, u ∈ units) →
      units.find? (isNamed (normalized s)) = (ofText? s).toOption) ∧
    (∀ u word before core after,
      word = u.name ∨ word = u.suffix ∨ ofEncoded? (.name word) = some u →
      allBlank before = true → allBlank after = true → IsMixedCase core word.toList →
      s.toList = before ++ core ++ after → ofText? s = .ok u) ∧
    ∀ f, ofText? s = .error f ↔
      (∀ u, ¬ IsSpelled s u) ∧ f = .validation "time_unit" "unknown time unit" (some s) := by
  refine ⟨fun u => ofText?_eq_ok_iff, fun u v hu hv => ?_, fun units hall => ?_, ?_,
    fun f => ofText?_eq_error_iff⟩
  · exact unit_unique (isSpelled_iff.mp hu) (isSpelled_iff.mp hv)
  · ext u
    rw [find?_isNamed hall, ← isSpelled_iff, ← ofText?_eq_ok_iff]
    cases ofText? s <;> simp [Except.toOption]
  · intro u word before core after hw hb ha hc hs
    have hword : word = u.name ∨ word = u.suffix := by
      rcases hw with h | h | h
      · exact .inl h
      · exact .inr h
      · exact .inl (ofEncoded?_name_iff.mp h)
    exact ofText?_eq_ok_iff.mpr (isSpelled_of_mixedCase hword hs hb ha hc)

/-- A suffix and a serialised name with capitals, between an em space and a line end; a text that
is no name for the white space inside it; and a long s, which only a wider lowering would turn
into a suffix. -/
theorem ofText?_reads_spellings_mixed :
    ofText? "\u2003mS\n" = .ok milliseconds ∧
    ofText? " HOurs" = .ok hours ∧
    [days, hours, minutes, seconds, milliseconds, microseconds, nanoseconds].find?
      (isNamed (normalized "\u2003mS\n")) = some milliseconds ∧
    ofText? " M S " = .error (.validation "time_unit" "unknown time unit" (some " M S ")) ∧
    ofText? "\u017f" = .error (.validation "time_unit" "unknown time unit" (some "\u017f")) := by
  obtain ⟨-, -, horder, hread, -⟩ := ofText?_reads_spellings "\u2003mS\n"
  obtain ⟨-, -, -, hread', -⟩ := ofText?_reads_spellings " HOurs"
  obtain ⟨-, -, -, -, hinner⟩ := ofText?_reads_spellings " M S "
  obtain ⟨-, -, -, -, hlong⟩ := ofText?_reads_spellings "\u017f"
  have hms : ofText? "\u2003mS\n" = .ok milliseconds :=
    hread _ "ms" ['\u2003'] ['m', 'S'] ['\n'] (.inr (.inl rfl)) rfl rfl (by decide) rfl
  refine ⟨hms, hread' _ "hours" [' '] ['H', 'O', 'u', 'r', 's'] [] (.inr (.inr rfl)) rfl rfl
    (by decide) rfl, ?_, (hinner _).mpr ⟨?_, rfl⟩, (hlong _).mpr ⟨?_, rfl⟩⟩
  · rw [horder _ fun u => by cases u <;> decide, hms]
    rfl
  · intro u
    rw [isSpelled_iff]
    cases u <;> decide
  · intro u
    rw [isSpelled_iff]
    cases u <;> decide

end TimeUnit

end TimedTasks
