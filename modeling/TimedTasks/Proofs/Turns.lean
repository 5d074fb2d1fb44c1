import TimedTasks.Proofs.Calls
/-!
Turns of children, made of operations. Whatever a child does in its turn is a sequence of
operations, after which nobody acts.
-/

namespace TimedTasks

variable {V : Type}

/-- What is known of a run that goes on no further in a state. -/
def Progress.Fits (w : World V) : Progress V → Prop
  | .suspended on _ => on.Within w.cells.length ∧ on.Pending w
  | .ended r => r ≠ .stopped

theorem Progress.fits_ended {w : World V} {r : RunEnd V} (hr : r ≠ .stopped) :
    (Progress.ended r).Fits w := hr

namespace World

variable {w w' : World V} {i : Nat} {child : Child V}

/-! ## Bodies -/

theorem isSettled_of_read? {c : Nat} (h : w.read? c = none) : w.isSettled c = false := by
  rw [read?, Option.map_eq_none_iff] at h
  rw [isSettled, h]
  rfl

theorem runSteps_leads (who : String) (s : List (Step V)) {b : Option Nat}
    (hr : Reached (.caller b) w) :
    Stretch (.caller b) w (.caller b) (w.runSteps who s).1 ∧
      (w.runSteps who s).2.Fits (w.runSteps who s).1 := by
  induction s generalizing w with
  | nil => exact ⟨note_leads who .succeeded hr, Progress.fits_ended (by simp)⟩
  | cons step rest ih =>
    have next : ∀ {w' : World V}, Leads (.caller b) w (.caller b) w' →
        Stretch (.caller b) w (.caller b) (w'.runSteps who rest).1 ∧
          (w'.runSteps who rest).2.Fits (w'.runSteps who rest).1 := fun h =>
      ⟨(h hr).trans (ih (h.reached hr)).1, (ih (h.reached hr)).2⟩
    cases step with
    | sleep d =>
      unfold runSteps
      split
      · exact ⟨.refl, trivial, trivial⟩
      · split
        · exact next (note_leads _ _)
        · rename_i t _ ht
          exact ⟨.refl, trivial, Nat.lt_of_not_le ht⟩
    | act c => exact next ((perform_leads c).trans (note_leads _ _))
    | get name =>
      unfold runSteps
      split
      · exact ⟨note_leads who .panicked hr, Progress.fits_ended (by simp)⟩
      · rename_i h hn
        split
        · exact next (note_leads _ _)
        · rename_i hread
          exact ⟨.refl, hr.sound.futures _ (Names.mem_of_get? hn), isSettled_of_read? hread⟩
    | join name =>
      unfold runSteps
      split
      · exact ⟨note_leads who .panicked hr, Progress.fits_ended (by simp)⟩
      · rename_i h hn
        split
        · exact next (note_leads _ _)
        · exact ⟨note_leads who _ hr, Progress.fits_ended (by simp)⟩
        · rename_i hread
          exact ⟨.refl, hr.sound.futures _ (Names.mem_of_get? hn), isSettled_of_read? hread⟩
    | ok value => exact ⟨note_leads who .succeeded hr, Progress.fits_ended (by simp)⟩
    | err cause => exact ⟨note_leads who .failed hr, Progress.fits_ended (by simp)⟩
    | panic => exact ⟨note_leads who .panicked hr, Progress.fits_ended (by simp)⟩
    | pending => exact ⟨.refl, trivial, trivial⟩

theorem resumeSteps_leads (who : String) {on : Wait} (rest : List (Step V)) {b : Option Nat}
    (hr : Reached (.caller b) w) (hon : on.Within w.cells.length) :
    Stretch (.caller b) w (.caller b) (w.resumeSteps who on rest).1 ∧
      (w.resumeSteps who on rest).2.Fits (w.resumeSteps who on rest).1 := by
  have next : ∀ event, Stretch (.caller b) w (.caller b) ((w.note who event).runSteps who rest).1 ∧
      ((w.note who event).runSteps who rest).2.Fits ((w.note who event).runSteps who rest).1 :=
    fun event =>
      have hn := note_leads (f := .caller b) (w := w) who event
      ⟨(hn hr).trans (runSteps_leads who rest (hn.reached hr)).1,
        (runSteps_leads who rest (hn.reached hr)).2⟩
  unfold resumeSteps
  cases on with
  | forever => exact ⟨.refl, trivial, trivial⟩
  | time t =>
    dsimp only
    split
    · exact next _
    · rename_i ht
      exact ⟨.refl, trivial, Nat.lt_of_not_le ht⟩
  | cell c joined =>
    dsimp only
    split
    · rename_i hread
      exact ⟨.refl, hon, isSettled_of_read? hread⟩
    · exact ⟨note_leads who _ hr, Progress.fits_ended (by simp)⟩
    · exact next _

theorem closeRun_snd (c : Nat) (p : Progress V) : (w.closeRun c p).2 = p := by
  cases p with
  | suspended on rest => rfl
  | ended r => cases r <;> rfl

/-! ## Children -/

/-- The child at a place is this one, which has gone on since but has not ended. -/
def Has (w : World V) (i : Nat) (child : Child V) : Prop :=
  ∃ cur, w.children[i]? = some cur ∧ Child.Later child cur ∧ cur.hasEnded = false

/-- The child whose turn it is has not ended. -/
theorem Has.keeps {f f' : Focus} (h : w.Has i child) (ho : Ops f w f' w') (hr : Reached f' w')
    (hf : f'.task? = some (.child i)) : w'.Has i child := by
  obtain ⟨cur, hc, hl, -⟩ := h
  obtain ⟨cur', hc', hl'⟩ := ho.later.children i cur hc
  have hk := hr.placed.known (.child i) (by rw [hf]; exact List.mem_cons_self)
  obtain ⟨x, hx, he⟩ := live_child.mp (hk.resolve_right (by simp))
  obtain rfl := Option.some.inj (hc'.symm.trans hx)
  exact ⟨cur', hc', hl.trans hl', he⟩

theorem Has.stretch {f f' : Focus} (h : w.Has i child) (hr : Reached f w) (ho : Stretch f w f' w')
    (hf : f'.task? = some (.child i)) : w'.Has i child := h.keeps ho.ops (ho.reached hr) hf

theorem Has.of_children (h : w.Has i child) (hc : w'.children = w.children) : w'.Has i child := by
  obtain ⟨cur, hcur, hl, he⟩ := h
  exact ⟨cur, hc ▸ hcur, hl, he⟩

theorem finish_congr {cur : Child V} (h : Child.Later child cur) (r : RunEnd V) :
    w.finish i cur r = w.finish i child r := by
  unfold finish deliver reportUnwanted
  rw [h.cell, h.work, h.executor]

theorem dueTime_congr {cur : Child V} (h : Child.Later child cur) :
    w.dueTime cur = w.dueTime child := by
  unfold dueTime
  rw [h.cell, h.work]

theorem succeed_congr {cur : Child V} (h : Child.Later child cur) {pace : Pace} {value : Option V} :
    w.succeed cur pace value = w.succeed child pace value := by
  unfold succeed
  rw [h.cell, dueTime_congr h]

theorem pause_leads {on : Wait} (rest : List (Step V)) (hw : on.Within w.cells.length)
    (hp : on.Pending w) :
    Leads (.caller (some i)) w (.caller none) (w.parkChild i (.suspended on rest)) := by
  apply Leads.known
  intro hr
  obtain ⟨cur, hc, he⟩ := hr.tended.acting rfl
  refine .op (fun _ => .pause rest hc he hw hp) (fun hwalk => .parks rfl rfl hc (by simp) ⟨?_, ?_⟩)
    (parkChild_frame _ hc).1
  · have hway : w.underWay cur.cell = true := hwalk.steady.acting rfl hc
    exact hway
  · intro due hs
    cases hs

theorem ended_of_modify
    (h : w'.children = w.children.modify i fun x => { x with stage := .ended }) :
    ∀ child, w'.children[i]? = some child → child.hasEnded = true := by
  intro child hc
  rw [h] at hc
  obtain ⟨x, -, ⟨-, rfl⟩ | ⟨hi, -⟩⟩ := exists_getElem?_of_modify hc
  · rfl
  · exact absurd rfl hi

theorem finish_leads (h : w.Has i child) {r : RunEnd V} (hr : r ≠ .stopped)
    (hk : child.work.kind = .periodic → ∀ value, r ≠ .returned value) :
    Leads (.caller (some i)) w (.caller none)
      ((w.closeRun child.cell (.ended r)).1.finish i child r) := by
  obtain ⟨cur, hc, hl, he⟩ := h
  rw [closeRun_ended, ← finish_congr hl, ← hl.cell]
  have hframe := finish_frame (w := w.modifyCell cur.cell (·.leave r)) r hc
  exact .op (fun _ => .finish hc he hr (hl.work ▸ hk))
    (fun _ => .retires rfl rfl (ended_of_modify hframe.2.1)) hframe.1

theorem stop_leads (h : w.Has i child)
    (hb : w.isSettled child.cell = true ∨ w.mayRun child.executor child.work.kind = false) :
    Leads (.turn (.child i)) w (.caller none) (w.giveUp i child) := by
  obtain ⟨cur, hc, hl, he⟩ := h
  rw [giveUp, ← finish_congr hl]
  have hframe := finish_frame (w := w) .stopped hc
  refine .op (fun _ => .stop hc he ?_)
    (fun _ => .retires rfl rfl (ended_of_modify hframe.2.1)) hframe.1
  rw [hl.cell, hl.executor, hl.work]
  exact hb

/-- A child that waits for a time after some operations, as is known from the state before them. -/
theorem sleep_leads {f₀ : Focus} {w₀ : World V} (before : Leads f₀ w₀ (.turn (.child i)) w)
    (h : w.Has i child) (hp : w.Rests child.cell) {due : Instant} (hd : w.now < due)
    (hk : (Stage.scheduled (V := V) due).Suits child.work)
    (ht : Walked f₀ w₀ → w.Timely { child with stage := .scheduled due } ∧
      w.Spared { child with stage := .scheduled due }) :
    Leads f₀ w₀ (.caller none) (w.parkChild i (.scheduled due)) := by
  obtain ⟨cur, hc, hl, he⟩ := h
  intro hr
  exact (before hr).next (.sleep hc he (hl.cell ▸ hp) (.inr ⟨due, rfl, hd⟩) (hl.work ▸ hk))
    (fun hwalk => .parks rfl rfl hc (by simp) (Timely.of_later hl (ht hwalk)))
    (parkChild_frame _ hc).1

/-- The success of a run of a periodic child. -/
theorem succeed_leads {pace : Pace} {runs : List (Body V)} (h : w.Has i child)
    (hw : child.work = .periodic pace runs) (value : Option V) :
    Leads (.caller (some i)) w (.turn (.child i)) (w.succeed child pace value) := by
  obtain ⟨cur, hc, hl, -⟩ := h
  rw [← succeed_congr hl]
  exact .stride (.succeed value hc (hl.work.trans hw)) (succeed_frame ..).1

/-- The success of a run of a periodic child after which it has no due time. -/
theorem strand_leads {pace : Pace} {runs : List (Body V)} (h : w.Has i child)
    (hw : child.work = .periodic pace runs) (value : Option V)
    (hn : pace.next? (w.dueTime child) w.now = none) :
    Leads (.caller (some i)) w (.caller none)
      ((w.succeed child pace value).parkChild i .stranded) := by
  obtain ⟨cur, hc, hl, he⟩ := h
  rw [← succeed_congr hl]
  rw [← dueTime_congr hl] at hn
  obtain ⟨hclock, hchildren, -⟩ := w.succeed_frame cur pace value
  have hc' : (w.succeed cur pace value).children[i]? = some cur := by rw [hchildren, hc]
  exact .stride (.strand value hc (hl.work.trans hw) he hn)
    ((parkChild_frame .stranded hc').1.trans hclock)

/-- A task that was signalled is settled. -/
theorem isSettled_of_isSignalled {f : Focus} (hr : Reached f w) {c : Nat}
    (hs : w.isSignalled c = true) : w.isSettled c = true := by
  rw [isSettled_eq]
  cases hc : w.cells[c]? with
  | none => simp [isSignalled, hc] at hs
  | some cell =>
    rw [isSignalled, hc] at hs
    exact (hr.tended.sane hc).token hs

/-- A child that has not ended and was not signalled is not settled. -/
theorem outcomeOf_of_not_signalled {f : Focus} (hr : Reached f w)
    (hc : w.children[i]? = some child) (he : child.hasEnded = false)
    (hs : w.isSignalled child.cell = false) : w.outcomeOf child.cell = none := by
  have hcell := List.getElem?_eq_getElem (hr.owned.cell_lt hc)
  cases ho : w.outcomeOf child.cell with
  | none => rfl
  | some o =>
    rw [outcomeOf, hcell] at ho
    have ht := (hr.tended.tends hc hcell).signalled he (Option.isSome_iff_exists.mpr ⟨o, ho⟩)
    simp [isSignalled, hcell, ht] at hs

/-- A child that rests and was not signalled may start a run. -/
theorem mayStart_of_rests {f : Focus} (hr : Reached f w) (h : w.Has i child)
    (hp : w.Rests child.cell) (hs : w.isSignalled child.cell = false) :
    w.mayStart child.cell = true := by
  obtain ⟨cur, hc, hl, he⟩ := h
  rw [← hl.cell] at hp hs ⊢
  obtain ⟨cell, hcell⟩ : ∃ cell, w.cells[cur.cell]? = some cell :=
    ⟨_, List.getElem?_eq_getElem (hr.owned.cell_lt hc)⟩
  have ho : cell.outcome = none := by
    have := outcomeOf_of_not_signalled hr hc he hs
    rwa [outcomeOf, hcell] at this
  refine mayStart_iff.mpr ⟨cell, hcell, ?_, ho⟩
  cases hphase : cell.phase with
  | idle => rfl
  | running => exact absurd (by rw [hcell]; exact congrArg some hphase) hp
  | closed =>
    have := (hr.tended.sane hcell).closed hphase
    simp [ho] at this

/-- The state in which a run of a child has been started. -/
def begun (w : World V) (i : Nat) (child : Child V) : World V :=
  ((w.countRun i child).beginRun child.cell).record (.called child.cell)

/-- The body of a run goes on from its start until it waits or ends. -/
def runBody (w : World V) (c : Nat) (who : String) : Body V → World V × Progress V
  | .broken => (w, .ended .panicked)
  | .steps s => ((w.record (.polled c)).note who .started).runSteps who s

/-- A run that starts goes on until its body waits or ends. -/
theorem startRun_leads (who : String) (body : Body V) (hr : Reached (.turn (.child i)) w)
    (h : w.Has i child) (hp : w.Rests child.cell) (hs : w.isSignalled child.cell = false)
    (hm : w.mayRun child.executor child.work.kind = true) (hd : w.dueTime child ≤ w.now) :
    ∃ (w₂ : World V) (p : Progress V),
      (w.countRun i child).startRun child.cell who body = w₂.closeRun child.cell p ∧
        Stretch (.turn (.child i)) w (.caller (some i)) w₂ ∧ p.Fits w₂ ∧
        Ops (.turn (.child i)) w (.caller (some i)) (w.begun i child) ∧
        (w.begun i child).runBody child.cell who body = (w₂, p) := by
  have hmay := mayStart_of_rests hr h hp hs
  obtain ⟨cur, hc, hl, he⟩ := h
  have hcount : w.countRun i child = w.countRun i cur := by
    unfold countRun
    rw [hl.work]
  have hdue : w.dueTime cur ≤ w.now := dueTime_congr hl ▸ hd
  -- The operation is about the child as it is now, the code about the child as it was read.
  unfold begun
  rw [hcount, ← hl.cell]
  rw [← hl.cell] at hmay hs
  rw [← hl.executor, ← hl.work] at hm
  have hstart := Op.start hc he hmay hs hm hdue
  have hgoes := Stretch.op hstart (fun _ => .calls fun c h => by simp [begin_history] at h)
    (countRun_frame w i cur).1
  have hgo : (w.countRun i cur).mayStart cur.cell = true ∧
      (w.countRun i cur).isSignalled cur.cell = false := by
    rw [mayStart, isSignalled, countRun_cells]
    exact ⟨hmay, hs⟩
  unfold startRun
  rw [hgo.1, hgo.2]
  cases body with
  | broken =>
    exact ⟨_, .ended .panicked, rfl, hgoes, Progress.fits_ended (by simp), hstart.ops, rfl⟩
  | steps s =>
    obtain ⟨cur', hc', hl'⟩ := hstart.later.children i cur hc
    have hpoll := Op.poll hc'
    rw [hl'.cell] at hpoll
    have hpolls := hgoes.next hpoll (fun _ => .poll rfl ?_ rfl fun _ => ⟨w.now, ?_⟩) rfl
    · have hnote := note_leads who .started ((hr.op hstart).op hpoll)
      obtain ⟨hops, hfits⟩ := runSteps_leads who s (hnote.reached ((hr.op hstart).op hpoll))
      exact ⟨_, _, rfl, (hpolls.trans hnote).trans hops, hfits, hstart.ops, rfl⟩
    · rw [underWay_single (begin_history w i cur)]
      simp [Happening.opens?]
    · simp [begin_history]

/-- What follows a piece of the only run of a child. -/
theorem afterOnce_leads {p : Progress V} (h : w.Has i child) (hk : child.work.kind ≠ .periodic)
    (hp : p.Fits w) :
    Leads (.caller (some i)) w (.caller none)
      ((w.closeRun child.cell p).1.afterOnce i child (w.closeRun child.cell p).2) := by
  rw [closeRun_snd]
  cases p with
  | suspended on rest => exact pause_leads rest hp.1 hp.2
  | ended r => exact finish_leads h hp fun hk' => absurd hk' hk

theorem afterFiring_returned {pace : Pace} {runs : List (Body V)}
    (hw : child.work = .periodic pace runs) (value : Option V) :
    (w.endRun child.cell).afterFiring i child pace (.ended (.returned value)) =
      match pace.next? (w.dueTime child) w.now with
      | some _ => (w.succeed child pace value, .again)
      | none =>
        if (w.succeed child pace value).isSignalled child.cell then
          ((w.succeed child pace value).giveUp i child, .settled)
        else ((w.succeed child pace value).parkChild i .stranded, .settled) := by
  let w' := (w.endRun child.cell).record (.ended child.cell (.returned value))
  -- The end of the run leaves the due time alone.
  have hmark : w'.markOf? child.cell = w.markOf? child.cell :=
    markOf?_modify (c := child.cell) rfl fun _ => rfl
  have hnext : pace.next? (((w'.markOf? child.cell).map (·.due)).getD w'.now) w'.now =
      pace.next? (w.dueTime child) w.now := by
    rw [hmark, dueTime_periodic hw]
    rfl
  unfold afterFiring succeed
  dsimp only
  rw [hnext]
  cases pace.next? (w.dueTime child) w.now <;> rfl

/-- What follows a piece of a run of a periodic child. -/
theorem afterFiring_leads {p : Progress V} {pace : Pace} {runs : List (Body V)} (h : w.Has i child)
    (hw : child.work = .periodic pace runs) (hp : p.Fits w) :
    ∃ (w₂ : World V) (after : AfterRun),
      (w.closeRun child.cell p).1.afterFiring i child pace (w.closeRun child.cell p).2 =
        (w₂, after) ∧
      match after with
      | .settled => Leads (.caller (some i)) w (.caller none) w₂
      | .again => Leads (.caller (some i)) w (.turn (.child i)) w₂ ∧ w₂.Rests child.cell := by
  have hk : child.work.kind = .periodic := by rw [hw]; rfl
  rw [closeRun_snd]
  cases p with
  | suspended on rest => exact ⟨_, _, rfl, pause_leads rest hp.1 hp.2⟩
  | ended r =>
    cases r with
    | stopped => exact absurd rfl hp
    | panicked => exact ⟨_, _, rfl, finish_leads h (by simp) (by simp)⟩
    | failed cause =>
      refine ⟨_, _, rfl, ?_⟩
      exact (report_leads _).trans (finish_leads (w := w.report _) h (by simp) (by simp))
    | returned value =>
      have hsucceeds := succeed_leads h hw value
      unfold closeRun
      dsimp only
      rw [afterFiring_returned hw]
      split
      · exact ⟨_, _, rfl, hsucceeds, w.succeed_rests child pace value⟩
      · rename_i hn
        split
        · rename_i hs
          refine ⟨_, _, rfl, hsucceeds.trans (.known fun hr => ?_)⟩
          exact stop_leads (h.of_children (succeed_frame ..).2.1)
            (.inl (isSettled_of_isSignalled hr hs))
        · exact ⟨_, _, rfl, strand_leads h hw value hn⟩

/-- A run of a periodic child is counted and reported. -/
theorem fire_eq {pace : Pace} {runs : List (Body V)} (hw : child.work = .periodic pace runs) :
    w.fire i child pace runs =
      ((w.report (.firing (w.nameOf child.executor)
        ((w.children[i]?.map (·.runs)).getD 0 + 1) pace)).countRun i child).startRun child.cell
          child.name (bodyForRun runs ((w.children[i]?.map (·.runs)).getD 0)) := by
  unfold fire countRun
  rw [hw]
  rfl

/-- A periodic child whose wait is over runs as often as it is due, and waits again or ends. -/
theorem periodicRounds_leads {pace : Pace} {runs : List (Body V)}
    (hw : child.work = .periodic pace runs) (rounds : Nat) (h : w.Has i child)
    (hp : w.Rests child.cell) :
    Leads (.turn (.child i)) w (.caller none) (w.periodicRounds i child pace runs rounds) := by
  have hk : child.work.kind = .periodic := by rw [hw]; rfl
  induction rounds generalizing w with
  | zero =>
    -- The child has had its share of rounds, and is ready for another turn.
    obtain ⟨cur, hc, hl, he⟩ := h
    rw [← hl.cell] at hp
    have scheduled : ∀ x, ((w.setStage i (.scheduled w.now)).enqueue (.child i)).children[i]? =
        some x → ∃ y : Child V, x = { y with stage := .scheduled w.now } := by
      intro x hx
      obtain ⟨y, -, ⟨-, rfl⟩ | ⟨hi, -⟩⟩ := exists_getElem?_of_modify hx
      · exact ⟨y, rfl⟩
      · exact absurd rfl hi
    refine .op (fun _ => .yield hc he hp (hl.work ▸ hk))
      (fun _ => .ends rfl rfl (fun x hx => ?_) fun x hx hs => ?_) rfl
    · -- Its time is now.
      obtain ⟨y, rfl⟩ := scheduled x hx
      exact timely_of_due (Nat.le_refl w.now)
    · obtain ⟨y, rfl⟩ := scheduled x hx
      cases hs
  | succ rounds ih =>
    unfold periodicRounds
    dsimp only
    split
    · rename_i hstop
      refine .known fun hr => stop_leads h ?_
      rcases Bool.or_eq_true_iff.mp hstop with hm | hs
      · exact .inr (hk ▸ by simpa using hm)
      · exact .inl (isSettled_of_isSignalled hr hs)
    · rename_i hgo
      rw [Bool.or_eq_true_iff, not_or, Bool.not_eq_true, Bool.not_eq_true,
        Bool.not_eq_false'] at hgo
      split
      · rename_i hnow
        refine sleep_leads .refl h hp hnow (Stage.suits_scheduled hk _)
          fun _ => ⟨?_, fun _ _ _ _ => hgo.1⟩
        unfold Timely dueTime
        rw [hw]
        exact fun _ => rfl
      · rename_i hnow
        apply Leads.known
        intro hr
        have hreport := report_leads (f := .turn (.child i)) (w := w)
          (.firing (w.nameOf child.executor) ((w.children[i]?.map (·.runs)).getD 0 + 1) pace)
        have hdue : w.dueTime child ≤ w.now := by
          unfold dueTime
          rw [hw]
          exact Nat.le_of_not_lt hnow
        obtain ⟨w₂, p, hrun, hops, hfits, -⟩ := startRun_leads child.name
          (bodyForRun runs ((w.children[i]?.map (·.runs)).getD 0)) (hreport.reached hr) h hp hgo.2
          (hk ▸ hgo.1) hdue
        have h₂ := h.stretch hr ((hreport hr).trans hops) rfl
        obtain ⟨w₃, after, hafter, hnext⟩ := afterFiring_leads h₂ hw hfits
        rw [fire_eq hw, hrun, hafter]
        have hstart : Leads (.turn (.child i)) w (.caller (some i)) w₂ :=
          hreport.trans fun _ => hops
        cases after with
        | settled => exact hstart.trans hnext
        | again =>
          exact (hstart.trans hnext.1).trans
            (ih (h.stretch hr ((hstart.trans hnext.1) hr) rfl) hnext.2)

/-! ## The turn of a child -/

/-- A child that has its only run starts it. -/
theorem onlyRun_leads (body : Body V) (hk : child.work.kind ≠ .periodic) (h : w.Has i child)
    (hp : w.Rests child.cell) (hs : w.isSignalled child.cell = false)
    (hm : w.mayRun child.executor child.work.kind = true) (hd : w.dueTime child ≤ w.now) :
    Leads (.turn (.child i)) w (.caller none)
      ((w.startRun child.cell child.name body).1.afterOnce i child
        (w.startRun child.cell child.name body).2) := by
  apply Leads.known
  intro hr
  have hcount : w.countRun i child = w := by
    unfold countRun
    split
    · rename_i hw
      rw [hw] at hk
      exact absurd rfl hk
    · rfl
  obtain ⟨w₂, p, hrun, hops, hfits, -⟩ := startRun_leads child.name body hr h hp hs hm hd
  rw [hcount] at hrun
  rw [hrun]
  exact Leads.trans (fun _ => hops) (afterOnce_leads (h.stretch hr hops rfl) hk hfits)

theorem delayedTurn_leads {due : Instant} {body : Body V} (hw : child.work = .delayed due body)
    (h : w.Has i child) (hp : w.Rests child.cell) :
    Leads (.turn (.child i)) w (.caller none) (w.delayedTurn i child due body) := by
  have hk : child.work.kind = .delayed := by rw [hw]; rfl
  unfold delayedTurn
  split
  · rename_i hs
    exact .known fun hr => stop_leads h (.inl (isSettled_of_isSignalled hr hs))
  · rename_i hs
    split
    · rename_i hnow
      refine sleep_leads .refl h hp hnow (by rw [hw]; rfl) fun _ => ⟨?_, ?_⟩
      · unfold Timely
        rw [hw]
        trivial
      · intro _ _ hk'
        rw [hk] at hk'
        cases hk'
    · rename_i hnow
      split
      · rename_i hm
        exact stop_leads h (.inr (hk ▸ by simpa using hm))
      · rename_i hm
        refine onlyRun_leads body (by simp [hk]) h hp (by simpa using hs)
          (hk ▸ by simpa using hm) ?_
        unfold dueTime
        rw [hw]
        exact Nat.le_of_not_lt hnow

/-- A periodic child whose turn has just begun, after some operations. -/
theorem periodicTurn_leads {f₀ : Focus} {w₀ : World V} (before : Leads f₀ w₀ (.turn (.child i)) w)
    {pace : Pace} {runs : List (Body V)} (hw : child.work = .periodic pace runs) {due : Instant}
    (hst : child.stage = .scheduled due) (h : w.Has i child) (hp : w.Rests child.cell)
    (ht : Walked f₀ w₀ → w.isSignalled child.cell = false → w.Timely child ∧ w.Spared child) :
    Leads f₀ w₀ (.caller none) (w.periodicTurn i child pace runs due) := by
  unfold periodicTurn
  split
  · rename_i hs
    exact before.trans (.known fun hr => stop_leads h (.inl (isSettled_of_isSignalled hr hs)))
  · rename_i hs
    split
    · rename_i hnow
      refine sleep_leads before h hp hnow
        (Stage.suits_scheduled (by rw [hw]; rfl) _) fun hwalk => ?_
      rw [← hst]
      exact ht hwalk (Bool.not_eq_true _ ▸ hs)
    · exact before.trans (periodicRounds_leads hw _ h hp)

/-- A child that runs as soon as it has a turn is not stopped by a shutdown. -/
theorem mayRun_of_immediate {e : Nat} (he : e < w.executors.length) :
    w.mayRun e .immediate = true := by
  unfold mayRun
  rw [List.getElem?_eq_getElem he]
  exact Bool.or_true _

theorem startRun_of_signalled {c : Nat} (hs : w.isSignalled c = true) (who : String)
    (body : Body V) : w.startRun c who body = (w, .ended .stopped) := by
  unfold startRun
  rw [hs]
  split <;> rfl

theorem onceTurn_leads (body : Body V) (hk : child.work.kind = .immediate) (h : w.Has i child)
    (hp : w.Rests child.cell) (hd : w.dueTime child ≤ w.now) :
    Leads (.turn (.child i)) w (.caller none)
      ((w.startRun child.cell child.name body).1.afterOnce i child
        (w.startRun child.cell child.name body).2) := by
  apply Leads.known
  intro hr
  cases hs : w.isSignalled child.cell with
  | true =>
    rw [startRun_of_signalled hs]
    exact stop_leads h (.inl (isSettled_of_isSignalled hr hs))
  | false =>
    have hlt : child.executor < w.executors.length := by
      obtain ⟨cur, hc, hl, -⟩ := h
      exact hl.executor ▸ hr.owned.executor_lt hc
    exact onlyRun_leads body (by simp [hk]) h hp hs (hk ▸ mayRun_of_immediate hlt) hd

theorem firstTurn_leads (h : w.Has i child) (hp : w.Rests child.cell) :
    Leads (.turn (.child i)) w (.caller none) (w.firstTurn i child) := by
  unfold firstTurn
  dsimp only
  refine (report_leads (.childStarted (w.nameOf child.executor) child.id child.work.kind)).trans ?_
  have hdue : ∀ w : World V, child.work.kind = .immediate → w.dueTime child ≤ w.now := by
    intro w hk
    unfold dueTime
    cases hw : child.work <;> first | exact Nat.zero_le _ | simp [hw, Work.kind] at hk
  split
  case h_4 due body hw => exact delayedTurn_leads hw h hp
  case h_5 pace runs hw => exact periodicRounds_leads hw _ h hp
  all_goals
    rename_i body hw
    have hk : child.work.kind = .immediate := by rw [hw]; rfl
    exact onceTurn_leads body hk h hp (hdue _ hk)

/-- A body whose task was cancelled while it was suspended is given up. -/
theorem dropRun_leads {on : Wait} {rest : List (Step V)} (who : String)
    (hc : w.children[i]? = some child) (he : child.stage = .suspended on rest)
    (hs : w.isSignalled child.cell = true) :
    Leads (.turn (.child i)) w (.caller none)
      (((w.note who .dropped).endRun child.cell).giveUp i child) := by
  have hdrop : Op (.turn (.child i)) (w.note who .dropped) (.turn (.child i))
      ((w.note who .dropped).endRun child.cell) := .drop hc he hs
  have hplain : Plain (.turn (.child i)) (w.note who .dropped) (.turn (.child i))
      ((w.note who .dropped).endRun child.cell) := by
    refine .stay (fun c h => ?_) fun c => markOf?_modify (c := child.cell) rfl fun _ => rfl
    have := congrArg List.length (show w.history = w.history ++ _ from h)
    simp at this
  refine (note_leads who .dropped).trans
    ((Leads.op (fun _ => hdrop) (fun _ => hplain) rfl).trans ?_)
  refine .known fun hr => stop_leads ⟨child, hc, .refl child, by rw [Child.hasEnded, he]⟩ ?_
  refine .inl (isSettled_of_isSignalled hr ?_)
  refine (isSignalled_modify (w := w.note who .dropped) rfl ?_).trans hs
  exact fun _ => rfl

/-- What follows a piece of a run of a child. A periodic child may start further runs. -/
theorem closeTurn_leads {p : Progress V} (h : w.Has i child) (hp : p.Fits w) (rounds : Nat) :
    Leads (.caller (some i)) w (.caller none)
      ((w.closeRun child.cell p).1.closeTurn i child rounds (w.closeRun child.cell p).2) := by
  unfold closeTurn
  split
  · rename_i pace runs hw
    obtain ⟨w₂, after, hafter, hnext⟩ := afterFiring_leads h hw hp
    rw [hafter]
    cases after with
    | settled => exact hnext
    | again =>
      refine .known fun hr => hnext.1.trans (periodicRounds_leads hw _ ?_ hnext.2)
      exact h.stretch hr (hnext.1 hr) rfl
  · rename_i hw
    refine afterOnce_leads h ?_ hp
    cases hwork : child.work with
    | periodic pace runs => exact absurd hwork (hw pace runs)
    | _ => simp [Work.kind]

/-- A body whose task was cancelled while it was suspended is dropped. -/
theorem suspendedTurn_of_signalled (hs : w.isSignalled child.cell = true) (i : Nat) (on : Wait)
    (rest : List (Step V)) :
    w.suspendedTurn i child on rest =
      ((w.note child.name .dropped).endRun child.cell).giveUp i child := by
  unfold suspendedTurn resumeRun closeTurn
  rw [if_pos hs]
  cases child.work <;> rfl

/-- A body that was suspended goes on, unless its task was cancelled, in a turn that has just begun
after some operations. -/
theorem suspendedTurn_leads {f₀ : Focus} {w₀ : World V}
    (before : Leads f₀ w₀ (.turn (.child i)) w) {on : Wait} {rest : List (Step V)}
    (hc : w.children[i]? = some child) (he : child.stage = .suspended on rest)
    (hway : Walked f₀ w₀ → w.underWay child.cell = true) :
    Leads f₀ w₀ (.caller none) (w.suspendedTurn i child on rest) := by
  have h : w.Has i child := ⟨child, hc, .refl child, by rw [Child.hasEnded, he]⟩
  cases hs : w.isSignalled child.cell with
  | true =>
    rw [suspendedTurn_of_signalled hs]
    exact before.trans (dropRun_leads child.name hc he hs)
  | false =>
    intro hr₀
    have hr := before.reached hr₀
    have hresume := Op.resume hc he hs
    obtain ⟨hops, hfits⟩ := resumeSteps_leads child.name rest (hr.op hresume)
      (hr.sound.waits hc he)
    have hresumed := (before hr₀).next hresume
      (fun hwalk => .poll rfl (hway hwalk) rfl fun h => by cases h) rfl
    have hgo := hresumed.trans hops
    have h₂ := (h.keeps hresume.ops (hr.op hresume) rfl).keeps hops.ops (hgo.reached hr₀) rfl
    unfold suspendedTurn resumeRun
    rw [if_neg (by simp [hs])]
    exact Leads.trans (fun _ => hgo) (closeTurn_leads h₂ hfits turnRounds) hr₀

/-- The child that is ready first takes its turn. -/
theorem childTurn_leads {rest : List TaskRef} (hready : w.ready = .child i :: rest) :
    Leads (.caller none) w (.caller none) ({ w with ready := rest }.childTurn i) := by
  have before : Leads (.caller none) w (.turn (.child i)) { w with ready := rest } :=
    .op (fun _ => .take hready) (fun _ => .turns) rfl
  have leave : { w with ready := rest }.IsOver (.child i) →
      Leads (.caller none) w (.caller none) { w with ready := rest } := by
    intro hover
    exact before.trans (.op (fun _ => .leave hover) (fun _ => .retires rfl rfl hover) rfl)
  unfold childTurn
  split
  · rename_i hc
    exact leave fun child hchild => by simp [hc] at hchild
  · rename_i child hc
    apply Leads.known
    intro hr₀
    have hr := before.reached hr₀
    -- A run is under way only while its body is suspended.
    have rests : child.hasEnded = false → (∀ on rest, child.stage ≠ .suspended on rest) →
        { w with ready := rest }.Rests child.cell := by
      intro he hs hrun
      obtain ⟨on, rest, hst⟩ := hr.suspended_of_running hc he (by simp [Focus.body?]) hrun
      exact hs on rest hst
    have has : child.hasEnded = false → { w with ready := rest }.Has i child :=
      fun he => ⟨child, hc, .refl child, he⟩
    have hsuits : child.stage.Suits child.work :=
      (hr.tended.tends hc (List.getElem?_eq_getElem (hr.owned.cell_lt hc))).suits
    -- Before its turn the child was where its last turn left it.
    have timely : Walked (.caller none) w → { w with ready := rest }.Timely child := fun hwalk =>
      (hwalk.steady.timely hc (by simp [Focus.task?])).keep rfl rfl (Nat.le_refl _)
        (List.prefix_refl _)
    split
    · rename_i hst
      have he : child.hasEnded = false := by rw [Child.hasEnded, hst]
      exact before.trans (firstTurn_leads (has he) (rests he (by simp [hst])))
    · rename_i due due' body hst hw
      have he : child.hasEnded = false := by rw [Child.hasEnded, hst]
      rw [hst, hw] at hsuits
      obtain rfl : due = due' := hsuits
      exact before.trans (delayedTurn_leads hw (has he) (rests he (by simp [hst])))
    · rename_i due pace runs hst hw
      have he : child.hasEnded = false := by rw [Child.hasEnded, hst]
      refine periodicTurn_leads before hw hst (has he) (rests he (by simp [hst])) fun hwalk hs =>
        ⟨timely hwalk, hwalk.steady.spared hc (by simp [Focus.task?]) (by simp [Focus.leaving?]) ?_⟩
      exact outcomeOf_of_not_signalled hr₀ hc he hs
    · -- Only delayed and periodic tasks are ever scheduled.
      rename_i due hst hdelayed hperiodic
      rw [hst] at hsuits
      cases hw : child.work with
      | delayed due' body => exact absurd hw (hdelayed due' body)
      | periodic pace runs => exact absurd hw (hperiodic pace runs)
      | _ => rw [hw] at hsuits; cases hsuits
    · rename_i on rest hst
      refine suspendedTurn_leads before hc hst fun hwalk => ?_
      have ht := timely hwalk
      unfold Timely at ht
      rw [hst] at ht
      exact ht
    · rename_i hst
      have he : child.hasEnded = false := by rw [Child.hasEnded, hst]
      split
      · rename_i hs
        exact before.trans (stop_leads (has he) (.inl (isSettled_of_isSignalled hr hs)))
      · refine fun hr₀ => (before hr₀).next
          (.sleep hc he (rests he (by simp [hst])) (.inl rfl) (hst ▸ hsuits))
          (fun hwalk => .parks rfl rfl hc (fun _ => hst) ⟨?_, fun due hs => by cases hs⟩)
          (parkChild_frame _ hc).1
        rw [← hst]
        exact timely hwalk
    · rename_i hst
      refine leave fun other hother => ?_
      obtain rfl := Option.some.inj (hc.symm.trans hother)
      rw [Child.hasEnded, hst]

end World

end TimedTasks
