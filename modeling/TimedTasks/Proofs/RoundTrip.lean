import TimedTasks.Executor.Call
import TimedTasks.Proofs.Quotation
import TimedTasks.Settings.Draft
/-!
Settings as a document, written and read again. A document is read line by line: a line that was
written for a key is read with the value that it was written for, whatever follows it. Which of the
four forms the name was written in matters for its value alone.
-/

namespace TimedTasks

namespace Toml

/-! ## Lines -/

theorem readAll_item {α : Type} {step : Reader (Option α)} {s r : List Char} {a : α}
    (h : step s = some (some a, r)) (hr : r.length < s.length) :
    readAll step s = (readAll step r).map fun p => (a :: p.1, p.2) := by
  rw [readAll, h]
  exact if_pos hr

theorem readAll_end {α : Type} {step : Reader (Option α)} {s r : List Char}
    (h : step s = some (none, r)) : readAll step s = some ([], r) := by
  rw [readAll, h]

theorem span_of_stop {p : Char → Bool} {s : List Char} (hs : s.all p = true) {c : Char}
    (hc : p c = false) (r : List Char) :
    (s ++ c :: r).takeWhile p = s ∧ (s ++ c :: r).dropWhile p = c :: r := by
  induction s with
  | nil => simp [hc]
  | cons d s ih =>
    rw [List.all_cons, Bool.and_eq_true] at hs
    simp [hs.1, ih hs.2]

/-- A character of a key without quotation marks is no blank, no quotation mark, and begins no
header or comment. -/
theorem ne_of_isBare {c : Char} (h : isBare c = true) :
    isBlank c = false ∧ c ≠ '"' ∧ c ≠ '\'' ∧ c ≠ '[' ∧ c ≠ '#' ∧ c ≠ '\n' ∧ c ≠ '\r' := by
  have hne : ∀ d, isBare d = false → c ≠ d := by
    rintro d hd rfl
    simp [h] at hd
  refine ⟨?_, hne _ (by decide), hne _ (by decide), hne _ (by decide), hne _ (by decide),
    hne _ (by decide), hne _ (by decide)⟩
  have hspace := hne ' ' (by decide)
  have htab := hne '\t' (by decide)
  simp [isBlank, hspace, htab]

/-- A key that can be written without quotation marks. -/
def IsBareKey (key : List Char) : Prop := key ≠ [] ∧ key.all isBare = true

instance (key : List Char) : Decidable (IsBareKey key) := inferInstanceAs (Decidable (_ ∧ _))

theorem readKey_bare {key : List Char} (hk : IsBareKey key) (r : List Char) :
    readKey (key ++ ' ' :: '=' :: r) = some (⟨[], String.ofList key⟩, '=' :: r) := by
  obtain ⟨hne, hall⟩ := hk
  obtain ⟨c, s, rfl⟩ := List.exists_cons_of_ne_nil hne
  obtain ⟨htake, hdrop⟩ := span_of_stop hall (c := ' ') (by decide) ('=' :: r)
  rw [List.all_cons, Bool.and_eq_true] at hall
  obtain ⟨hblank, hdouble, hsingle, -⟩ := ne_of_isBare hall.1
  have hskip : skipBlanks (c :: s ++ ' ' :: '=' :: r) = c :: s ++ ' ' :: '=' :: r := by
    rw [skipBlanks, List.cons_append, List.dropWhile_cons_of_neg (by simp [hblank])]
  have hword : keyWord (c :: s ++ ' ' :: '=' :: r) = some (c :: s, ' ' :: '=' :: r) := by
    unfold keyWord
    split
    · rename_i h; exact absurd (List.cons.inj h).1 hdouble
    · rename_i h; exact absurd (List.cons.inj h).1 hsingle
    · rw [htake, hdrop, if_neg (List.cons_ne_nil _ _)]
  have hpart : keyPart (skipBlanks (c :: s ++ ' ' :: '=' :: r)) =
      some (String.ofList (c :: s), '=' :: r) := by
    rw [keyPart, hskip, hword]
    rfl
  unfold readKey
  rw [hpart]
  dsimp only [bind, Option.bind]
  rw [readAll_end (r := '=' :: r) rfl]
  rfl

theorem readPair_bare {key : List Char} (hk : IsBareKey key) {value r : List Char} {v : Value}
    (hv : readValue maxDepth (value ++ r) = some (v, r))
    (hb : ∃ c s, value = c :: s ∧ isBlank c = false) :
    readPair (readValue maxDepth) (key ++ ' ' :: '=' :: ' ' :: (value ++ r)) =
      some ((⟨[], String.ofList key⟩, v), r) := by
  obtain ⟨c, s, rfl, hc⟩ := hb
  have hskip : skipBlanks (' ' :: (c :: s ++ r)) = c :: s ++ r := by
    simp [skipBlanks, hc, show isBlank ' ' = true from rfl]
  unfold readPair
  rw [readKey_bare hk]
  simp only [Option.bind_eq_bind, Option.bind_some]
  rw [hskip, hv]
  rfl

/-- A line that gives a key a value is read as that. -/
theorem nextStatement_line {key : List Char} (hk : IsBareKey key) {value r : List Char} {v : Value}
    (hv : readValue maxDepth (value ++ '\n' :: r) = some (v, '\n' :: r))
    (hb : ∃ c s, value = c :: s ∧ isBlank c = false) :
    nextStatement (Settings.line (String.ofList key) value ++ r) =
      some (some (.pair ⟨[], String.ofList key⟩ v), r) := by
  have hline : Settings.line (String.ofList key) value ++ r =
      key ++ ' ' :: '=' :: ' ' :: (value ++ '\n' :: r) := by
    simp [Settings.line]
  have hpair := readPair_bare hk hv hb
  rw [hline]
  obtain ⟨hne, hall⟩ := hk
  obtain ⟨c, s, rfl⟩ := List.exists_cons_of_ne_nil hne
  rw [List.all_cons, Bool.and_eq_true] at hall
  obtain ⟨hblank, -, -, hheader, hcomment, hfeed, hreturn⟩ := ne_of_isBare hall.1
  have hlines : skipLines (c :: s ++ ' ' :: '=' :: ' ' :: (value ++ '\n' :: r)) =
      c :: s ++ ' ' :: '=' :: ' ' :: (value ++ '\n' :: r) := by
    rw [List.cons_append, skipLines, if_neg (by simp [hblank])]
    · exact hfeed
    · exact fun _ h _ => hreturn h
    · exact hcomment
  have hstatement : readStatement (c :: s ++ ' ' :: '=' :: ' ' :: (value ++ '\n' :: r)) =
      some (.pair ⟨[], String.ofList (c :: s)⟩ v, '\n' :: r) := by
    unfold readStatement
    split
    · rename_i h; exact absurd (List.cons.inj h).1 hheader
    · rename_i h; exact absurd (List.cons.inj h).1 hheader
    · rw [hpair]; rfl
  unfold nextStatement
  rw [hlines]
  split
  · rename_i h; cases h
  · rw [hstatement]
    rfl

theorem nextStatement_nil : nextStatement [] = some (none, []) := by
  rw [nextStatement, skipLines]

/-! ## Values -/

theorem readValue_plain {s : List Char} (hs : ∀ c r, s = c :: r → c ≠ '[' ∧ c ≠ '\x7b')
    (depth : Nat) : readValue depth s = readPlain s := by
  unfold readValue
  split
  · rename_i h; exact absurd rfl (hs _ _ rfl).1
  · rename_i h; exact absurd rfl (hs _ _ rfl).2
  · rfl

theorem writeString_head (s : List Char) :
    ∃ q r, writeString s = q :: r ∧ (q = '"' ∨ q = '\'') := by
  unfold writeString
  cases StringForm.of s with
  | basic => exact ⟨_, _, rfl, .inl rfl⟩
  | literal => exact ⟨_, _, rfl, .inr rfl⟩
  | multiBasic => exact ⟨_, _, rfl, .inl rfl⟩
  | multiLiteral => exact ⟨_, _, rfl, .inr rfl⟩

/-- A text is read in a line as it was written there. -/
theorem readValue_writeString (s r : List Char) :
    readValue maxDepth (writeString s ++ '\n' :: r) =
      some (.string (String.ofList s), '\n' :: r) := by
  have hread : readString (writeString s ++ '\n' :: r) = some (s, '\n' :: r) :=
    readString_writeString (by simp) (by simp) s
  obtain ⟨q, t, ht, hq⟩ := writeString_head s
  rw [ht, List.cons_append] at hread ⊢
  rw [readValue_plain (by rintro c r hc; cases hc; rcases hq with rfl | rfl <;> decide)]
  rcases hq with rfl | rfl
  · simp only [readPlain, hread, Option.map_some]
  · simp only [readPlain, hread, Option.map_some]

/-- A truth value is read in a line as it was written there. -/
theorem readValue_boolText (b : Bool) (r : List Char) :
    readValue maxDepth ((Settings.boolText b).toList ++ '\n' :: r) =
      some (.boolean b, '\n' :: r) := by
  cases b
  · rw [readValue_plain (by rintro c r hc; cases hc; decide)]
    rfl
  · rw [readValue_plain (by rintro c r hc; cases hc; decide)]
    rfl

end Toml

namespace Settings

open Toml

/-! ## Documents -/

/-- What the lines of written settings say. -/
def entries (s : Settings) : Entries :=
  [(nameKey, .string s.name), (keepPeriodicKey, .boolean s.keepPeriodic),
    (keepDelayedKey, .boolean s.keepDelayed)]

theorem ofEntries?_entries (s : Settings) : ofEntries? s.entries = some s := rfl

theorem readStatements_document (s : Settings) :
    readAll nextStatement s.document.toList =
      some (s.entries.map fun p => .pair ⟨[], p.1⟩ p.2, []) := by
  obtain ⟨q, t, hq, hquote⟩ := writeString_head s.name.toList
  have hquoted : ∃ c u, writeString s.name.toList = c :: u ∧ isBlank c = false :=
    ⟨q, t, hq, by rcases hquote with rfl | rfl <;> rfl⟩
  have htruth (b : Bool) : ∃ c u, (boolText b).toList = c :: u ∧ isBlank c = false := by
    cases b
    · exact ⟨_, _, rfl, rfl⟩
    · exact ⟨_, _, rfl, rfl⟩
  have hlength (key : String) (value r : List Char) : r.length < (line key value ++ r).length := by
    simp only [line, List.length_append, List.length_cons, List.length_nil]
    omega
  have hname (r) := nextStatement_line (r := r) (show IsBareKey nameKey.toList by decide)
    (readValue_writeString s.name.toList _) hquoted
  have hperiodic (r) := nextStatement_line (r := r)
    (show IsBareKey keepPeriodicKey.toList by decide) (readValue_boolText s.keepPeriodic _)
    (htruth _)
  have hdelayed (r) := nextStatement_line (r := r)
    (show IsBareKey keepDelayedKey.toList by decide) (readValue_boolText s.keepDelayed _) (htruth _)
  simp only [String.ofList_toList] at hname hperiodic hdelayed
  rw [document, String.toList_ofList, List.append_assoc, readAll_item (hname _) (hlength ..),
    readAll_item (hperiodic _) (hlength ..), ← List.append_nil (line keepDelayedKey _),
    readAll_item (hdelayed _) (hlength ..), readAll_end nextStatement_nil]
  rfl

/-- A document that was written is read with the entries that were written. -/
theorem readDocument_document (s : Settings) :
    readDocument? s.document.toList = some s.entries := by
  have hmark : withoutMark s.document.toList = s.document.toList := by
    rw [document, String.toList_ofList]
    rfl
  unfold readDocument?
  rw [hmark, readStatements_document]
  rfl

/-- Settings that were written are read back if they are valid, and refused otherwise. -/
theorem ofDocument_document (s : Settings) : ofDocument s.document = s.checked := by
  rw [ofDocument, readDocument_document, Option.bind_some, ofEntries?_entries]

/-- What settings with a blank name are refused with. -/
def blankName : TaskError := .ofFault (.config "executor name must not be empty" (some "name"))

theorem checked_of_blank {s : Settings} (h : Text.allBlank s.name.toList = true) :
    s.checked = .error blankName := by
  rw [checked, validate, if_pos h, blankName]

theorem checked_of_not_blank {s : Settings} (h : Text.allBlank s.name.toList = false) :
    s.checked = .ok s := (checked_eq_ok_iff s s).2 ⟨rfl, h⟩

/-- Only settings that pass their check are read. -/
theorem checked_of_ofDocument {text : String} {c : Settings} (h : ofDocument text = .ok c) :
    c.checked = .ok c := by
  unfold ofDocument at h
  split at h
  · cases h
  · obtain ⟨rfl, hname⟩ := (checked_eq_ok_iff _ _).1 h
    exact checked_of_not_blank hname

theorem chosenSettings_all (s : Settings) :
    World.chosenSettings none (some s.name) (some s.keepPeriodic) (some s.keepDelayed) =
      s.checked := rfl

theorem buildAlone_of_hasRuntime {d : Draft} (h : d.hasRuntime = true) :
    d.buildAlone = d.settings.checked := by
  unfold Draft.buildAlone
  cases d.settings.checked with
  | error e => rfl
  | ok s => simp [bind, Except.bind, h, pure, Except.pure]

end Settings

variable {V : Type}

namespace World

/-- Builds an executor with given settings. -/
def build (w : World V) (name : String) (s : Settings) : World V × Answer V :=
  w.create name none (some s.name) (some s.keepPeriodic) (some s.keepDelayed)

theorem build_of_ok (w : World V) (name : String) {s : Settings} (h : s.checked = .ok s) :
    (w.build name s).2 = .settings s ∧
      (w.build name s).1.executors =
        w.executors ++ [{ settings := s, origin := w.now }] := by
  unfold build create
  rw [Settings.chosenSettings_all, h]
  exact ⟨rfl, rfl⟩

theorem build_of_error (w : World V) (name : String) {s : Settings} {e : TaskError}
    (h : s.checked = .error e) : w.build name s = (w, .error e) := by
  unfold build create
  rw [Settings.chosenSettings_all, h]

end World

/-- Settings are read as they were written, whatever their name holds; the only settings refused
are those with a blank name, by every way to use them, and with one error; and what is read from
any text can be written and read again. -/
theorem settings_read_as_written (w : World V) (executor : String) :
    (∀ s : Settings, Text.allBlank s.name.toList = false →
      Settings.ofDocument s.document = .ok s ∧
      s.checked = .ok s ∧
      (∀ hasClock, Draft.buildAlone ⟨s, true, hasClock⟩ = .ok s) ∧
      (w.build executor s).2 = .settings s ∧
      (w.build executor s).1.executors = w.executors ++ [{ settings := s, origin := w.now }]) ∧
    (∀ s : Settings, Text.allBlank s.name.toList = true →
      Settings.ofDocument s.document = .error Settings.blankName ∧
      s.checked = .error Settings.blankName ∧
      (∀ hasClock, Draft.buildAlone ⟨s, true, hasClock⟩ = .error Settings.blankName) ∧
      w.build executor s = (w, .error Settings.blankName)) ∧
    ∀ (text : String) (c : Settings), Settings.ofDocument text = .ok c →
      Text.allBlank c.name.toList = false ∧ Settings.ofDocument c.document = .ok c := by
  refine ⟨fun s hs => ?_, fun s hs => ?_, fun text c hc => ?_⟩
  · have hok := Settings.checked_of_not_blank hs
    exact ⟨s.ofDocument_document.trans hok, hok,
      fun _ => (Settings.buildAlone_of_hasRuntime rfl).trans hok, w.build_of_ok executor hok⟩
  · have hblank := Settings.checked_of_blank hs
    exact ⟨s.ofDocument_document.trans hblank, hblank,
      fun _ => (Settings.buildAlone_of_hasRuntime rfl).trans hblank,
      w.build_of_error executor hblank⟩
  · have hok := Settings.checked_of_ofDocument hc
    exact ⟨((Settings.checked_eq_ok_iff c c).1 hok).2, c.ofDocument_document.trans hok⟩

/-- A name with line ends, a backslash, and quotation marks of both kinds in a row. -/
theorem settings_read_as_written_quotes :
    Text.allBlank "\na\\'''\"\"\"\"\r\n'".toList = false ∧
      Settings.ofDocument (Settings.document ⟨"\na\\'''\"\"\"\"\r\n'", false, true⟩) =
        .ok ⟨"\na\\'''\"\"\"\"\r\n'", false, true⟩ :=
  ⟨by decide,
    ((settings_read_as_written (World.start (V := Unit) true) "e").1
      ⟨_, false, true⟩ (by decide)).1⟩

end TimedTasks
