import TimedTasks.Proofs.Callers
import TimedTasks.Proofs.Decision
/-!
The call that hands in a batch and waits for all of it. It returns at its first turn at which all
children have ended or its time is up, and hands out one future for each body, in their order. If
all children have ended it cancels nothing; else it cancels the futures that are still unsettled,
and the others keep what they have.
-/

namespace TimedTasks

variable {V : Type}

/-! ## Names -/

namespace Names

variable {α : Type}

theorem get?_filter (l : Names α) (p : String → Bool) (name : String) :
    get? (l.filter fun q => p q.1) name = if p name then l.get? name else none := by
  unfold get?
  induction l with
  | nil => simp
  | cons q l ih =>
    obtain ⟨key, a⟩ := q
    rw [List.filter_cons]
    by_cases hk : name = key
    · subst hk
      cases hp : p name
      · simpa [hp] using ih
      · simp
    · have hb : (name == key) = false := beq_eq_false_iff_ne.mpr hk
      cases hp : p key <;> simp [List.lookup_cons, hb, ih]

theorem get?_put (l : Names α) (name : String) (a : α) (other : String) :
    (l.put name a).get? other = if other = name then some a else l.get? other := by
  have herase := get?_filter l (· != name) other
  unfold put erase get? at *
  rw [List.lookup_append, herase]
  by_cases ho : other = name
  · simp [ho]
  · have hb : (other == name) = false := beq_eq_false_iff_ne.mpr ho
    simp [ho, hb, List.lookup_cons]

end Names

namespace World

variable {w : World V} {j b : Nat} {batch : Batch V}

theorem numbered_inj {name : String} {m n : Nat}
    (h : name ++ "." ++ toString m = name ++ "." ++ toString n) : m = n := by
  have hd : Nat.toDigits 10 m = Nat.toDigits 10 n := by
    rw [String.append_right_inj] at h
    simpa [Nat.toList_repr] using congrArg String.toList h
  rw [← Nat.ofDigitChars_ten_toDigits (n := m), hd, Nat.ofDigitChars_ten_toDigits]

theorem nameBatch_frame (w : World V) (name : String) (n : Nat) (cells : List Nat) :
    (w.nameBatch name n cells).waiters = w.waiters ∧
    (w.nameBatch name n cells).log = w.log ∧
    (w.nameBatch name n cells).clock = w.clock ∧
    (w.nameBatch name n cells).cells = w.cells := by
  induction cells generalizing w n with
  | nil => exact ⟨rfl, rfl, rfl, rfl⟩
  | cons c cells ih => exact ih _ _

/-- The naming of a batch from `n` on leaves the names with smaller numbers alone. -/
theorem nameBatch_get?_of_lt (name : String) {m n : Nat} (cells : List Nat) (hm : m < n) :
    (w.nameBatch name n cells).futureNames.get? (name ++ "." ++ toString m) =
      w.futureNames.get? (name ++ "." ++ toString m) := by
  induction cells generalizing w n with
  | nil => rfl
  | cons c cells ih =>
    refine (ih (Nat.lt_succ_of_lt hm)).trans ?_
    rw [nameFuture, Names.get?_put, if_neg fun h => Nat.ne_of_lt hm (numbered_inj h)]

/-- The futures of a batch get their names by position. -/
theorem nameBatch_get? (name : String) {n k c : Nat} {cells : List Nat} (hk : cells[k]? = some c) :
    (w.nameBatch name n cells).futureNames.get? (name ++ "." ++ toString (n + k)) =
      some ⟨c, .plain⟩ := by
  induction cells generalizing w n k with
  | nil => simp at hk
  | cons c' cells ih =>
    cases k with
    | zero =>
      obtain rfl : c' = c := by simpa using hk
      refine (nameBatch_get?_of_lt name cells (Nat.lt_succ_self n)).trans ?_
      rw [nameFuture, Names.get?_put, if_pos rfl]
    | succ k =>
      have hk' : cells[k]? = some c := by simpa using hk
      have hn : n + (k + 1) = n + 1 + k := by omega
      rw [hn]
      exact ih hk'

/-! ## The answer -/

/-- The call hands out the futures of its batch, each with what it yields. -/
theorem answerAll_frame {x : Waiter V} (hx : w.waiters[j]? = some x) (cells : List Nat) :
    (w.answerAll j x.name cells).waiters[j]? = some { x with stage := .ended } ∧
    (w.answerAll j x.name cells).log =
      w.log ++ [⟨w.now, x.name, .answered (.reads (cells.map w.read?))⟩] ∧
    (w.answerAll j x.name cells).cells = w.cells ∧
    ∀ (k c : Nat), cells[k]? = some c →
      (w.answerAll j x.name cells).futureNames.get? (x.name ++ "." ++ toString k) =
        some ⟨c, .plain⟩ := by
  obtain ⟨hwaiters, hlog, hclock, hcells⟩ := nameBatch_frame w x.name 0 cells
  have hread : (w.nameBatch x.name 0 cells).read? = w.read? := by
    funext c
    rw [read?, read?, outcomeOf, outcomeOf, hcells]
  obtain ⟨hended, hlog', hcells', hnames⟩ := finishWaiter_frame (w := w.nameBatch x.name 0 cells)
    (by rw [hwaiters]; exact hx) (.reads (cells.map (w.nameBatch x.name 0 cells).read?))
  refine ⟨hended, ?_, hcells'.trans hcells, fun k c hk => ?_⟩
  · refine hlog'.trans ?_
    rw [hlog, hread, now, now, hclock]
  · have hname := nameBatch_get? (w := w) x.name (n := 0) hk
    rw [Nat.zero_add] at hname
    exact (congrArg (Names.get? · _) hnames).trans hname

/-- The call ends with its answer. If it has not waited in vain, nothing is cancelled. -/
theorem conclude_all {x : Waiter V} {e : Nat} {bodies : List (Body V)} {bound : Option Duration}
    (hb : w.batches[b]? = some batch) (hq : x.request = .invokeAll e bodies bound)
    (inTime : Bool) :
    ∃ w₁ : World V, w.conclude j x (.batch b) inTime = w₁.answerAll j x.name batch.cells ∧
      w₁.waiters = w.waiters ∧ w₁.log = w.log ∧ w₁.clock = w.clock ∧
      w₁.cells = if inTime then w.cells else (w.cancelAll batch.cells).1.cells := by
  unfold conclude
  rw [hq]
  dsimp only
  rw [hb]
  dsimp only
  cases inTime with
  | true => exact ⟨w, rfl, rfl, rfl, rfl, rfl⟩
  | false =>
    obtain ⟨hlog, hclock, hwaiters⟩ := cancelAll_frame w batch.cells
    exact ⟨(w.cancelAll batch.cells).1.report _, rfl, hwaiters, hlog, hclock, rfl⟩

end World

open World

variable {f f' : Focus} {w w' : World V} {b j : Nat} {batch : Batch V}

/-- A batch whose caller waits for all of it comes to something when all its children have ended. -/
theorem Reached.notified_iff_allEnded (hr : Reached f w) (hb : w.batches[b]? = some batch)
    {child : Child V} (hc : child ∈ w.children) (hw : child.work.batch? = some b)
    (hn : child.work.raced? = none) : batch.notified = true ↔ w.AllEnded batch.cells := by
  have ht := hr.batched.tallied b batch hb
  -- If one child is not raced, none is, so that no value is the first.
  have hracers : ∀ c, c ∉ w.racers b := by
    intro c hm
    obtain ⟨other, ho, hraced, -⟩ := mem_racers.mp hm
    have := hr.batched.alike other ho child hc b hraced hw
    simp [hn] at this
  have hwinner : batch.winner = none := by
    rw [ht.winner, firstValue?, List.findSome?_eq_none_iff]
    intro p hp
    exact (Happening.value?_of_cell? fun c hc => absurd hc (hracers c)).1
  rw [ht.notified, hwinner, Option.isSome_none, Bool.false_or, beq_iff_eq]
  exact hr.remaining_eq_zero_iff hb

/-- The futures of a batch whose children have all ended are settled. -/
theorem Reached.settled_of_allEnded (hr : Reached f w) (hb : w.batches[b]? = some batch)
    (hended : w.AllEnded batch.cells) : ∀ c ∈ batch.cells, w.isSettled c = true := by
  intro c hc
  have hm := hc
  rw [(hr.batched.tallied b batch hb).cells, mem_members] at hm
  obtain ⟨child, hchild, -, rfl⟩ := hm
  exact hr.endedSettled child hchild (hended child hchild hc)

/-! ## The call -/

/-- Whether a caller that waits for all of a batch has waited long enough. -/
def World.GatherOver (w : World V) (cells : List Nat) (deadline : Option Instant) : Prop :=
  w.AllEnded cells ∨ ∃ t, deadline = some t ∧ t ≤ w.now

/-- A turn of a caller that waits for all of a batch. -/
theorem Reached.gather_turn (hr : Reached (.turn (.waiter j)) w) {x : Waiter V}
    (hx : w.waiters[j]? = some x) {deadline : Option Instant}
    (hst : x.stage = .waiting (.batch b) deadline) {e : Nat} {bodies : List (Body V)}
    {bound : Option Duration} (hq : x.request = .invokeAll e bodies bound)
    (hb : w.batches[b]? = some batch) (hn : batch.notified = true ↔ w.AllEnded batch.cells) :
    (¬ w.GatherOver batch.cells deadline →
      (w.waiterTurn j).waiters[j]? = some x ∧ (w.waiterTurn j).log = w.log ∧
      (w.waiterTurn j).cells = w.cells) ∧
    (w.GatherOver batch.cells deadline →
      (w.waiterTurn j).waiters[j]? = some { x with stage := .ended } ∧
      (w.waiterTurn j).log = w.log ++ [⟨w.now, x.name,
        .answered (.reads (batch.cells.map (w.waiterTurn j).read?))⟩] ∧
      (∀ (k c : Nat), batch.cells[k]? = some c →
        (w.waiterTurn j).futureNames.get? (x.name ++ "." ++ toString k) = some ⟨c, .plain⟩) ∧
      (∀ c ∈ batch.cells, (w.waiterTurn j).isSettled c = true) ∧
      (w.AllEnded batch.cells → (w.waiterTurn j).cells = w.cells) ∧
      (¬ w.AllEnded batch.cells → ∀ c, (w.waiterTurn j).cells[c]? =
        if c ∈ batch.cells then w.cells[c]?.map (·.cancelBy true) else w.cells[c]?)) := by
  have hturn : w.waiterTurn j = w.checkWaiter j x (.batch b) deadline := by
    rw [waiterTurn, hx]
    dsimp only
    rw [hst]
  have hcome : w.hasCome (.batch b) = batch.notified := by simp [hasCome, hb]
  rw [hturn]
  constructor
  · intro hover
    have hwaits : w.hasCome (.batch b) = false := by
      rw [hcome, Bool.eq_false_iff]
      exact fun h => hover (.inl (hn.mp h))
    rw [checkWaiter_waits hwaits fun t ht => Nat.lt_of_not_le fun hle => hover (.inr ⟨t, ht, hle⟩)]
    exact ⟨waiters_of_waits hx hst, rfl, rfl⟩
  · intro hover
    obtain ⟨inTime, hconclude, htime⟩ : ∃ inTime,
        w.checkWaiter j x (.batch b) deadline = w.conclude j x (.batch b) inTime ∧
        (inTime = true ↔ w.AllEnded batch.cells) := by
      cases hnot : batch.notified with
      | true => exact ⟨true, if_pos (hcome.trans hnot), by simp [← hn, hnot]⟩
      | false =>
        have hgoing : ¬ w.AllEnded batch.cells := by simp [← hn, hnot]
        obtain ⟨t, rfl, ht⟩ := hover.resolve_left hgoing
        exact ⟨false, checkWaiter_late (hcome.trans hnot) ht, by simp [hgoing]⟩
    rw [hconclude]
    obtain ⟨w₁, hanswer, hwaiters, hlog, hclock, hcells⟩ := conclude_all (j := j) hb hq inTime
    rw [hanswer]
    obtain ⟨hended, hlog', hcells', hnames⟩ :=
      answerAll_frame (w := w₁) (by rw [hwaiters]; exact hx) batch.cells
    have hread : (w₁.answerAll j x.name batch.cells).read? = w₁.read? := by
      funext c
      rw [read?, read?, outcomeOf, outcomeOf, hcells']
    refine ⟨hended, ?_, hnames, fun c hc => ?_, fun hall => ?_, fun hall c => ?_⟩
    · rw [hlog', hlog, hread, now, now, hclock]
    · rw [isSettled_eq, hcells', hcells]
      cases inTime with
      | true => exact isSettled_eq w c ▸ hr.settled_of_allEnded hb (htime.mp rfl) c hc
      | false => exact isSettled_eq _ c ▸ cancelAll_settles (batch_cell_lt hr hb) c hc
    · rw [hcells', hcells, if_pos (htime.mpr hall)]
    · rw [hcells', hcells, if_neg fun h => hall (htime.mp h), cancelAll_cells]

/-- The call hands in its batch and waits. -/
theorem World.waiterTurn_all {x : Waiter V} {e : Nat} {bodies : List (Body V)}
    {bound : Option Duration} {deadline : Option Instant} (hx : w.waiters[j]? = some x)
    (hst : x.stage = .created) (hq : x.request = .invokeAll e bodies bound)
    (hrun : w.isRunning e = true) (hne : bodies ≠ []) (hz : isZeroBound bound = false)
    (hd : deadline = bound.bind (Instant.after? w.now)) :
    ∃ n, w.waiterTurn j =
      (((w.report n).openBatch e x.name .oneOfAll bodies).modifyWaiter j fun y =>
        { y with stage := .waiting (.batch w.batches.length) deadline }).suspend (.waiter j) := by
  refine ⟨.invokeAllCalled (w.nameOf e) bodies.length bound, ?_⟩
  have hrun' : (w.report (.invokeAllCalled (w.nameOf e) bodies.length bound)).isRunning e = true :=
    hrun
  rw [waiterTurn, hx]
  dsimp only
  rw [hst]
  dsimp only
  rw [beginWaiter, hq]
  dsimp only
  unfold beginAll
  dsimp only
  rw [hrun', Bool.not_true, if_neg Bool.false_ne_true, hz, if_neg Bool.false_ne_true,
    if_neg (by simpa using hne)]
  exact startBatch_waits hz hd

/-- What has become of a future of a batch when the call returns, and by what: `o` is its outcome in
`w'`, and its body had its turns from `w` on. -/
structure Fate (f : Focus) (w : World V) (f₁ : Focus) (w₁ w' : World V) (c : Nat) (o : Outcome V) :
    Prop where
  outcome : w'.outcomeOf c = some o
  completed : ∀ value, o = .completed value ↔ EndsOpen f w f₁ w₁ c (.returned value)
  failed : ∀ cause, o = .failed cause ↔ EndsOpen f w f₁ w₁ c (.failed cause)
  cancelled : o = .cancelled ↔ (∀ value, ¬ EndsOpen f w f₁ w₁ c (.returned value)) ∧
    ∀ cause, ¬ EndsOpen f w f₁ w₁ c (.failed cause)

/-- A future of a batch whose caller waits for all of it, after a turn that does no more than settle
what was unsettled as cancelled. -/
theorem Ops.fate (ops : Ops f w f' w') (hr : Reached f w) {i : Nat} {child : Child V}
    (hc : w.children[i]? = some child) {body : Body V} (hw : child.work = .oneOfAll b body)
    (hn : w.outcomeOf child.cell = none) {w'' : World V} {o : Outcome V}
    (ho : w''.outcomeOf child.cell = some o)
    (hsame : w'.outcomeOf child.cell = some o ∨
      w'.outcomeOf child.cell = none ∧ o = .cancelled) :
    Fate f w f' w' w'' child.cell o := by
  have hdecided : ∀ {o' : Outcome V}, o' ≠ .cancelled →
      (w'.outcomeOf child.cell = some o' ↔
        ∃ r, child.work.verdict? r = some o' ∧ EndsOpen f w f' w' child.cell r) :=
    fun hne => ops.decided hr hc hn hne
  have hsettled : ∀ {o' : Outcome V}, o' ≠ .cancelled →
      (o = o' ↔ w'.outcomeOf child.cell = some o') := by
    intro o' hne
    rcases hsame with hs | ⟨hs, rfl⟩
    · simp [hs]
    · simp [hs, Ne.symm hne]
  have completed : ∀ value, o = .completed value ↔
      EndsOpen f w f' w' child.cell (.returned value) := by
    intro value
    rw [hsettled (by simp), hdecided (by simp), hw]
    constructor
    · rintro ⟨r, hv, he⟩
      cases r with
      | returned value' =>
        obtain rfl : value' = value := by
          simpa [Work.verdict?, Work.kind, Work.yields] using hv
        exact he
      | _ => simp [Work.verdict?] at hv
    · exact fun he => ⟨_, by simp [Work.verdict?, Work.kind, Work.yields], he⟩
  have failed : ∀ cause, o = .failed cause ↔ EndsOpen f w f' w' child.cell (.failed cause) := by
    intro cause
    rw [hsettled (by simp), hdecided (by simp), hw]
    constructor
    · rintro ⟨r, hv, he⟩
      cases r with
      | failed cause' =>
        obtain rfl : cause' = cause := by simpa [Work.verdict?] using hv
        exact he
      | returned value => simp [Work.verdict?, Work.kind, Work.yields] at hv
      | _ => simp [Work.verdict?] at hv
    · exact fun he => ⟨_, by simp [Work.verdict?], he⟩
  refine ⟨ho, completed, failed, ?_⟩
  constructor
  · rintro rfl
    exact ⟨fun value he => by simpa using (completed value).mpr he,
      fun cause he => by simpa using (failed cause).mpr he⟩
  · rintro ⟨hc, hf⟩
    cases o with
    | completed value => exact absurd ((completed value).mp rfl) (hc value)
    | failed cause => exact absurd ((failed cause).mp rfl) (hf cause)
    | cancelled => rfl

/-- What is known of a batch whose caller waits for all of it, after it was handed in. -/
theorem Ops.gathering (ops : Ops f w f' w') (hr : Reached f w) {new old : List (Child V)}
    {bodies : List (Body V)}
    (hb : w.batches[b]? = some { cells := new.map (·.cell), remaining := bodies.length })
    (hchildren : w.children = old ++ new) (hworks : new.map (·.work) = bodies.map (.oneOfAll b))
    (hne : bodies ≠ []) :
    ∃ batch, w'.batches[b]? = some batch ∧ batch.cells = new.map (·.cell) ∧
      (batch.notified = true ↔ w'.AllEnded (new.map (·.cell))) := by
  obtain ⟨batch, hb', hl⟩ := ops.later.batches _ _ hb
  -- One of the children tells that the batch is not raced.
  obtain ⟨body, child, hc, hwork⟩ := ops.later.exists_handed hchildren hworks hne
  have hn := (hr.ops ops).notified_iff_allEnded hb' hc (by rw [hwork]; rfl) (by rw [hwork]; rfl)
  rw [hl.cells] at hn
  exact ⟨batch, hb', hl.cells, hn⟩

/-- When no task is ready, a caller that waits for all of a batch has reason to. -/
theorem Reached.gather_goes_on (hr : Reached (.caller none) w) (hready : w.ready = [])
    {x : Waiter V} (hx : w.waiters[j]? = some x) {deadline : Option Instant}
    (hst : x.stage = .waiting (.batch b) deadline) (hb : w.batches[b]? = some batch)
    {cells : List Nat} (hn : batch.notified = true ↔ w.AllEnded cells) :
    ¬ w.GatherOver cells deadline := by
  obtain ⟨hcome, htime⟩ := hr.waits_on hready hx hst
  have hnot : batch.notified = false := by simpa [hasCome, hb] using hcome
  rintro (hall | ⟨t, ht, hle⟩)
  · rw [hn.mpr hall] at hnot
    cases hnot
  · exact Nat.not_lt.mpr hle (htime t ht)

/-- The future of a task that has just come in is unsettled. -/
theorem Reached.unsettled_newcomer (hr : Reached f w) (hr' : Reached f' w')
    (hhistory : w'.history = w.history) {child : Child V} (hc : child ∈ w'.children)
    (hnew : w.cells.length ≤ child.cell) : w'.outcomeOf child.cell = none := by
  rw [hr'.judged.outcome child hc, hhistory, List.findSome?_eq_none_iff]
  intro p hp
  refine Happening.verdict?_of_cell? (fun hk => ?_) _
  exact absurd (hr.judged.within p hp _ hk) (Nat.not_lt.mpr hnew)

/-- A future of a batch that is settled when its caller returns was settled before, or is cancelled
by the caller. -/
theorem World.settled_before_or_cancelled {cells : List Nat} {c : Nat} {o : Outcome V}
    (hc : c ∈ cells) (hlt : c < w.cells.length) (hkept : w.AllEnded cells → w'.cells = w.cells)
    (hcancelled : ¬ w.AllEnded cells → w'.cells[c]? =
      if c ∈ cells then w.cells[c]?.map (·.cancelBy true) else w.cells[c]?)
    (ho : w'.outcomeOf c = some o) :
    w.outcomeOf c = some o ∨ w.outcomeOf c = none ∧ o = .cancelled := by
  by_cases hall : w.AllEnded cells
  · rw [outcomeOf, hkept hall] at ho
    exact .inl ho
  · obtain ⟨hcancel, hkeep⟩ := cancelled_or_kept hlt (hcancelled hall)
    cases hs : w.isSettled c with
    | true =>
      rw [outcomeOf, hkeep (.inr hs)] at ho
      exact .inl ho
    | false =>
      rw [hcancel hc hs] at ho
      exact .inr ⟨isSettled_eq_false_iff.mp hs, (Option.some.inj ho).symm⟩

section Call

variable {w₀ : World V} {x : Waiter V} {e : Nat} {bodies : List (Body V)} {bound : Option Duration}

/-- A call for all of some bodies, on a running executor and with time left, hands in a child for
each of them in its first turn, and waits. It returns at its first turn at which all these children
have ended or its time is up; an earlier turn only lets it wait again. It hands out one future for
each body, in the order of the bodies, each settled: with the value or the failure that a run of the
body ended with while the future was unsettled, and as cancelled where none did. If all children
have ended the call has cancelled nothing; else it cancels just the futures of the batch that are
unsettled then. When no task is ready, a call that waits has reason to. -/
theorem Reached.all_settled (hr : Reached (.turn (.waiter j)) w₀) (hx : w₀.waiters[j]? = some x)
    (hst : x.stage = .created) (hq : x.request = .invokeAll e bodies bound)
    (hrun : w₀.isRunning e = true) (hne : bodies ≠ []) (hz : isZeroBound bound = false) :
    ∃ new : List (Child V), (w₀.waiterTurn j).children = w₀.children ++ new ∧
      new.map (·.work) = bodies.map (.oneOfAll w₀.batches.length) ∧
      (∀ child ∈ new, child.executor = e) ∧
      (w₀.waiterTurn j).waiters[j]? = some { x with
        stage := .waiting (.batch w₀.batches.length) (bound.bind (Instant.after? w₀.now)) } ∧
      (∀ (w : World V) (y : Waiter V), Ops (.caller none) (w₀.waiterTurn j) (.turn (.waiter j)) w →
        w.waiters[j]? = some y → y.stage ≠ .ended →
        (¬ w.GatherOver (new.map (·.cell)) (bound.bind (Instant.after? w₀.now)) →
          (w.waiterTurn j).waiters[j]? = some y ∧ (w.waiterTurn j).log = w.log ∧
          (w.waiterTurn j).cells = w.cells) ∧
        (w.GatherOver (new.map (·.cell)) (bound.bind (Instant.after? w₀.now)) →
          (w.waiterTurn j).waiters[j]? = some { y with stage := .ended } ∧
          (w.waiterTurn j).log = w.log ++ [⟨w.now, x.name,
            .answered (.reads (new.map fun child => (w.waiterTurn j).read? child.cell))⟩] ∧
          (∀ (k : Nat) (child : Child V), new[k]? = some child →
            (w.waiterTurn j).futureNames.get? (x.name ++ "." ++ toString k) =
              some ⟨child.cell, .plain⟩ ∧
            ∃ o, Fate (.caller none) (w₀.waiterTurn j) (.turn (.waiter j)) w (w.waiterTurn j)
              child.cell o) ∧
          (w.AllEnded (new.map (·.cell)) → (w.waiterTurn j).cells = w.cells) ∧
          (¬ w.AllEnded (new.map (·.cell)) → ∀ c < w.cells.length,
            (c ∈ new.map (·.cell) → w.isSettled c = false →
              (w.waiterTurn j).outcomeOf c = some .cancelled) ∧
            (c ∉ new.map (·.cell) ∨ w.isSettled c = true →
              (w.waiterTurn j).cells[c]? = w.cells[c]?)))) ∧
      ∀ (w : World V) (y : Waiter V), Ops (.caller none) (w₀.waiterTurn j) (.caller none) w →
        w.ready = [] → w.waiters[j]? = some y → y.stage ≠ .ended →
          ¬ w.GatherOver (new.map (·.cell)) (bound.bind (Instant.after? w₀.now)) := by
  obtain ⟨n, hturn⟩ := waiterTurn_all hx hst hq hrun hne hz rfl
  obtain ⟨new, hchildren, hworks, hnew, hhistory, hx₁, hb₁⟩ := handed_in hx hturn
  have hr₁ := waiterTurn_leads.reached hr
  have hbody : ∀ child ∈ new, ∃ body, child.work = .oneOfAll w₀.batches.length body := by
    intro child hc
    have hm := List.mem_map_of_mem (f := (·.work)) hc
    rw [hworks] at hm
    obtain ⟨body, -, hw⟩ := List.mem_map.mp hm
    exact ⟨body, hw.symm⟩
  refine ⟨new, hchildren, hworks, fun child hc => (hnew child hc).1, hx₁, ?_, ?_⟩
  · intro w y ops hy hye
    obtain ⟨batch, hb, hcells, hn⟩ := ops.gathering hr₁ hb₁ hchildren hworks hne
    obtain ⟨y', hy', hname, hreq, hs⟩ := ops.waits hr₁ hx₁ rfl
    obtain rfl := Option.some.inj (hy.symm.trans hy')
    rw [← hcells] at hn
    obtain ⟨hwaits, hreturns⟩ := (hr₁.ops ops).gather_turn hy (hs.resolve_left hye)
      (hreq.trans hq) hb hn
    rw [hcells] at hwaits hreturns
    refine ⟨hwaits, fun hover => ?_⟩
    obtain ⟨hended, hlog, hnames, hsettled, hkept, hcancelled⟩ := hreturns hover
    rw [hname] at hlog hnames
    rw [List.map_map] at hlog
    refine ⟨hended, hlog, fun k child hk => ⟨hnames k child.cell (by simp [hk]), ?_⟩, hkept,
      fun hall c hc => cancelled_or_kept hc (hcancelled hall c)⟩
    have hm := List.mem_of_getElem? hk
    have hcell : child.cell ∈ new.map (·.cell) := List.mem_map_of_mem hm
    obtain ⟨body, hw⟩ := hbody child hm
    obtain ⟨i, hi⟩ := List.mem_iff_getElem?.mp (hchildren ▸ List.mem_append_right w₀.children hm)
    obtain ⟨o, ho⟩ := Option.isSome_iff_exists.mp (hsettled _ hcell)
    -- The future was unsettled when the call began to wait.
    have hopen : (w₀.waiterTurn j).outcomeOf child.cell = none :=
      hr.unsettled_newcomer hr₁ hhistory (List.mem_of_getElem? hi) (hnew child hm).2
    exact ⟨o, ops.fate hr₁ hi hw hopen ho (settled_before_or_cancelled hcell
      (batch_cell_lt (hr₁.ops ops) hb _ (hcells ▸ hcell)) hkept (hcancelled · _) ho)⟩
  · intro w y ops hready hy hye
    obtain ⟨batch, hb, -, hn⟩ := ops.gathering hr₁ hb₁ hchildren hworks hne
    obtain ⟨y', hy', -, -, hs⟩ := ops.waits hr₁ hx₁ rfl
    obtain rfl := Option.some.inj (hy.symm.trans hy')
    exact (hr₁.ops ops).gather_goes_on hready hy (hs.resolve_left hye) hb hn

end Call

/-- A call hands in three bodies, which have a nanosecond: one that yields a value, one that fails,
one that goes on for ever. -/
def threeWorkers : World Nat :=
  { (World.start false).after
      [.call (.create "pool" none none none none),
        .call (.invokeAll "call" "pool" [.steps [.ok (some 7)], .steps [.err (.text "no")],
          .steps [.pending]] (some ⟨1, by decide⟩))] with
    ready := [] }

/-- The state in which the nanosecond is over and the caller takes its next turn. -/
def oneTickLater : World Nat :=
  { ((threeWorkers.waiterTurn 0).turn.turn.turn).moveTo ⟨1, by decide⟩ with ready := [] }

theorem all_settled_threeWorkers :
    (oneTickLater.waiterTurn 0).log = oneTickLater.log ++ [⟨1, "call",
      .answered (.reads [some (.ok (some 7)), some (.error (.execution (.text "no"))),
        some (.error .cancelled)])⟩] ∧
    (oneTickLater.waiterTurn 0).outcomeOf 2 = some .cancelled := by
  have hr : Reached (.turn (.waiter 0)) threeWorkers := (Reached.after false _).op (.take rfl)
  obtain ⟨new, hchildren, -, -, -, hturns, -⟩ :=
    Reached.all_settled hr rfl rfl rfl rfl (by simp) rfl
  obtain rfl : (threeWorkers.waiterTurn 0).children = new := hchildren
  have ops : Ops (.caller none) (threeWorkers.waiterTurn 0) (.turn (.waiter 0)) oneTickLater := by
    have h := (turn_leads.trans (turn_leads.trans turn_leads)) (waiterTurn_leads.reached hr)
    exact h.ops.trans ((moveTo_way (by decide)).ops.trans (Op.take rfl).ops)
  have hdeadline : Instant.after? threeWorkers.now ⟨1, by decide⟩ = some 1 :=
    if_pos (by decide)
  obtain ⟨-, hlog, -, -, hcancelled⟩ :=
    (hturns oneTickLater _ ops rfl (by simp)).2 (.inr ⟨1, hdeadline, Nat.le_refl _⟩)
  have hall : ¬ oneTickLater.AllEnded ((threeWorkers.waiterTurn 0).children.map (·.cell)) := by
    intro h
    have hgoes : (oneTickLater.children[2]).hasEnded = false := rfl
    rw [h _ (List.getElem_mem _) (by decide)] at hgoes
    cases hgoes
  exact ⟨hlog, (hcancelled hall 2 (by decide)).1 (by decide) rfl⟩

end TimedTasks
