import TimedTasks.Proofs.AtRest
import TimedTasks.Proofs.Mirror
import TimedTasks.Proofs.Naming
/-!
A task that keeps to itself can be left out. The run in which it is handed in is set beside the same
run without it. The task is veiled in the one, and has no counterpart in the other, where all that
came after it in the lists of cells and children stands one place further down; every other task
stands for itself. As long as no other task and no later step names the task, and the task only
waits and looks around, the two runs stay side by side. A task that another one hands in is named by
that one, as the tasks of a batch are by their caller, so it is about the tasks that calls from
outside hand in one by one.
-/

namespace TimedTasks

open World

variable {V : Type}

/-! ## A task that keeps to itself -/

/-- Whether a call only looks: it hands nothing in, waits for nothing, and changes neither a future
nor an executor nor a name. -/
def Call.Looks : Call V → Prop
  | .inspect _ | .delay .. | .dueTime _ | .compare .. | .compareFixed .. | .sort _ | .lifecycle _
  | .describe _ | .stats _ => True
  | _ => False

/-- Whether a step waits, looks or ends the body. -/
def Step.Looks : Step V → Prop
  | .act c => c.Looks
  | _ => True

def Body.Looks : Body V → Prop
  | .broken => True
  | .steps s => ∀ x ∈ s, x.Looks

/-- A task that one call hands in. -/
structure Errand (V : Type) where
  executor : String
  /-- The name under which it notes what it does. -/
  name : String
  /-- The name of its future, if it has one. -/
  future : Option String
  /-- Its body, or the bodies of its runs. -/
  bodies : List (Body V)

/-- The task that a call hands in, by itself and not as one of a batch. -/
def Call.errand? : Call V → Option (Errand V)
  | .execute e task body => some ⟨e, task, none, [body]⟩
  | .submit e f _ body | .schedule e f _ body => some ⟨e, f, some f, [body]⟩
  | .repeating e f _ _ runs => some ⟨e, f, some f, runs⟩
  | _ => none

namespace Errand

/-- Whether something is not the name of the task's future. -/
def Spares (d : Errand V) (m : Mention) : Prop := ∀ f, d.future = some f → m ≠ .future f

end Errand

def Work.bodies : Work V → List (Body V)
  | .once _ body | .delayed _ body | .oneOfAll _ body | .oneOfAny _ body => [body]
  | .periodic _ runs => runs

/-! ## The task is handed in -/

/-- The place in a list of what was the `b`th before something was put in at the `n`th place. -/
def skip (n b : Nat) : Nat := if b < n then b else b + 1

theorem skip_of_lt {n b : Nat} (h : b < n) : skip n b = b := if_pos h

theorem skip_of_le {n b : Nat} (h : n ≤ b) : skip n b = b + 1 := if_neg (Nat.not_lt_of_le h)

theorem skip_inj {n a b : Nat} (h : skip n a = skip n b) : a = b := by
  unfold skip at h
  split at h <;> split at h <;> omega

theorem eq_of_not_skip {n a : Nat} (h : ∀ b, a ≠ skip n b) : a = n := by
  rcases Nat.lt_trichotomy a n with hlt | heq | hlt
  · exact absurd (skip_of_lt hlt).symm (h a)
  · exact heq
  · refine absurd ?_ (h (a - 1))
    rw [skip_of_le (by omega)]
    omega

/-- A list beside one that has a member more at its end. What comes later stands one place further
down in the one than in the other. -/
theorem Linked.inserted {α : Type} {rel : Nat → Nat → α → α → Prop} {l : List α} (a : α)
    (h : ∀ i x, l[i]? = some x → rel i i x x) :
    Linked (fun i j => i = skip l.length j) rel (l ++ [a]) l where
  sharp := ⟨fun hi hj => hi.trans hj.symm, fun hi hj => skip_inj (hi.symm.trans hj)⟩
  rel := by
    rintro _ j rfl
    by_cases hj : j < l.length
    · rw [skip_of_lt hj, List.getElem?_append_left hj, List.getElem?_eq_getElem hj]
      exact .some (h j _ (List.getElem?_eq_getElem hj))
    · have hj := Nat.le_of_not_lt hj
      rw [skip_of_le hj, List.getElem?_eq_none (by simp; omega), List.getElem?_eq_none hj]
      exact .none
  fresh n := by
    rw [skip_of_le (Nat.le_add_right _ _), List.length_append]
    exact Nat.add_right_comm _ 1 n

namespace World

/-- A run in which an executor is given a task that another one is not given. -/
def deleting (w : World V) (e : Nat) (d : Errand V) : Pairing where
  cell a b := a = skip w.cells.length b
  child i j := i = skip w.children.length j
  executor := e
  sealed := False
  shuns m := ¬ d.Spares m
  own _ := False
  own_shuns _ := False.elim
  batch_shuns _ _ := False.elim
  keeps _ := False
  past _ _ := False
  start _ _ := 0
  seenLeft := 0
  seenRight := 0

section Before

variable {w : World V} {e c i : Nat} {d : Errand V} {f : Focus} {child : Child V}

theorem deleting_admits (k : Nat) : (w.deleting e d).Admits k := fun _ => id

theorem deleting_cell (hc : c < w.cells.length) : (w.deleting e d).cell c c := (skip_of_lt hc).symm

theorem deleting_child (hi : i < w.children.length) : (w.deleting e d).child i i :=
  (skip_of_lt hi).symm

theorem deleting_left_cell : (w.deleting e d).left.cell c ↔ c = w.cells.length := by
  refine ⟨eq_of_not_skip, ?_⟩
  rintro rfl b hb
  have hb : w.cells.length = skip w.cells.length b := hb
  unfold skip at hb
  split at hb <;> omega

theorem deleting_left_child : (w.deleting e d).left.child i ↔ i = w.children.length := by
  refine ⟨eq_of_not_skip, ?_⟩
  rintro rfl j hj
  have hj : w.children.length = skip w.children.length j := hj
  unfold skip at hj
  split at hj <;> omega

theorem polite_of_spares {l : List Mention} (h : ∀ m ∈ l, d.Spares m) :
    (w.deleting e d).Polite l := fun m hm => not_not_intro (h m hm)

theorem ahead_of_polite {σ : Pairing} {work : Work V} (h : σ.Polite work.mentions) (n : Nat) :
    σ.Ahead n work := by
  cases work with
  | periodic pace runs => exact fun k _ => Paired.bodyForRun_polite h k
  | _ => exact h

theorem deleting_mirrors : (w.deleting e d).Mirrors w where
  cells _ hc := .inl (deleting_cell hc)
  children _ hi := .inl (deleting_child hi)

theorem deleting_children (hr : Reached f w) (hw : w.Speaks d.Spares)
    (hc : w.children[i]? = some child) :
    (w.deleting e d).Children nobody i i child child where
  executor := rfl
  cell := deleting_cell (hr.owned.cell_lt hc)
  name := rfl
  work := rfl
  stage := .refl fun _ _ _ hs => deleting_cell (hr.sound.waits hc hs)
  rest on rest hs := .inr (polite_of_spares (hw.rests child (List.mem_of_getElem? hc) on rest hs))
  runs := rfl
  since := Nat.zero_le _
  goesOn := .inr ⟨ahead_of_polite
    (polite_of_spares (hw.works child (List.mem_of_getElem? hc))) _, False.elim⟩

theorem deleting_waiters (hr : Reached f w) (hw : w.Speaks d.Spares) {j : Nat} {x : Waiter V}
    (hx : w.waiters[j]? = some x) : (w.deleting e d).Waiters x x := by
  have hbegin : (w.deleting e d).MayBegin x.request := by
    have hp := hw.requests x (List.mem_of_getElem? hx)
    cases hq : x.request with
    | invokeAll k bodies bound =>
      rw [hq] at hp
      exact ⟨deleting_admits k, polite_of_spares hp⟩
    | invokeAny k bodies bound =>
      rw [hq] at hp
      exact ⟨deleting_admits k, polite_of_spares hp⟩
    | _ => trivial
  have hname : (w.deleting e d).MayName x.name x.request := by
    cases x.request with
    | invokeAll => exact not_not_intro fun f _ => by simp
    | _ => trivial
  exact deleting_mirrors.waiters hr hx (fun _ => hbegin) fun _ => hname

theorem deleting_batches (hr : Reached f w) {b : Nat} {x : Batch V} (hx : w.batches[b]? = some x) :
    (w.deleting e d).Batches x x := by
  refine .refl fun c hc => deleting_cell ?_
  rw [(hr.batched.tallied b x hx).cells] at hc
  obtain ⟨child, hm, -, rfl⟩ := mem_members.mp hc
  obtain ⟨i, hi⟩ := List.mem_iff_getElem?.mp hm
  exact hr.owned.cell_lt hi

/-- The executor that is given the child has one more in its registry. -/
theorem deleting_executor (hr : Reached f w) {x y : Executor} (hx : w.executors[e]? = some x)
    (hsettings : y.settings = x.settings) (horigin : y.origin = x.origin)
    (hstate : y.state = x.state) (hregistry : y.registry = x.registry ++ [w.children.length]) :
    (w.deleting e d).Executors e e y x where
  same := rfl
  settings := hsettings
  origin := horigin
  registry :=
    hregistry ▸ (deleting_mirrors.registry hr hx).concat_left (deleting_left_child.mpr rfl)
  keeps _ _ := False.elim
  running _ _ := by rw [hstate]
  exact hne := absurd rfl hne

theorem deleting_executors (hr : Reached f w) {k : Nat} {x : Executor}
    (hx : w.executors[k]? = some x) : (w.deleting e d).Executors k k x x :=
  ⟨rfl, rfl, rfl, deleting_mirrors.registry hr hx, fun _ _ => False.elim, fun _ _ => .rfl,
    fun _ => ⟨rfl, rfl, rfl, rfl⟩⟩

/-- A child is handed in on the left. -/
theorem deleting_paired (hr : Reached f w) (hw : w.Speaks d.Spares) (he : e < w.executors.length)
    (name : String) {work : Work V} (mark : Option Mark) (halone : work.batch? = none)
    (htame : work.Tame (w.deleting e d) 0) :
    Paired (w.deleting e d) nobody (w.addChild e name work mark).1 w where
  clock := rfl
  cells := .inserted _ fun _ _ _ => rfl
  children := .inserted _ fun _ _ => deleting_children hr hw
  waiters := .refl fun _ _ => deleting_waiters hr hw
  batches := .refl fun _ _ => deleting_batches hr
  executors := {
    sharp := .eq
    rel := by
      rintro k _ rfl
      show Option.Rel _ (w.executors.modify e _)[k]? w.executors[k]?
      cases hx : w.executors[k]? with
      | none =>
        rw [List.getElem?_modify, hx]
        exact .none
      | some x =>
        rw [List.getElem?_modify, hx]
        refine .some ?_
        show (w.deleting e d).Executors k k (if e = k then _ else x) x
        split
        · rename_i hk
          subst hk
          exact deleting_executor hr hx rfl rfl rfl rfl
        · exact deleting_executors hr hx
    fresh := fun n => by
      show (w.executors.modify e _).length + n = _
      rw [List.length_modify] }
  ready := by
    refine (Weave.refl fun r hm => ?_).concat_left (deleting_left_child.mpr rfl)
    exact deleting_mirrors.refs hr (fun _ _ => deleting_waiters hr hw) (List.mem_append_left _ hm)
  waiting := .refl fun _ hm =>
    deleting_mirrors.refs hr (fun _ _ => deleting_waiters hr hw) (List.mem_append_right _ hm)
  executorNames := rfl
  unnamed := False.elim
  here := Nat.lt_of_lt_of_eq he (List.length_modify ..).symm
  futureNames n _ := Option.Rel.of_some fun _ hx =>
    ⟨deleting_cell (hr.sound.futures _ (Names.mem_of_get? hx)), rfl⟩
  ownLeft _ _ := False.elim
  ownRight _ _ := False.elim
  waiterNames := rfl
  threadNames n := Option.Rel.of_some fun _ hx =>
    deleting_cell (hw.threads _ (Names.mem_of_get? hx))
  seenLeft := Nat.zero_le _
  seenRight := Nat.zero_le _
  log := .refl fun x _ => .inl ⟨rfl, rfl, .same _⟩
  anew _ := rfl
  history := .refl fun _ hm => (deleting_mirrors.happenings hr hm).imp_left (⟨rfl, ·⟩)
  veiledLeft i child hc hv := by
    obtain rfl := deleting_left_child.mp hv
    obtain rfl : _ = child := by
      simpa [World.addChild, World.enqueue, modifyExecutor, addCell] using hc
    exact ⟨rfl, deleting_left_cell.mpr rfl, halone, htame, fun _ _ => by rintro ⟨⟩⟩
  veiledRight j _ _ hv := absurd rfl (hv (skip w.children.length j))

end Before

/-! ## The call that hands the task in -/

section Call

variable {w : World V} {e : Nat} {d : Errand V} {f : Focus} {c : Call V}

theorem onExecutor_done {name : String} {g : Nat → World V × Answer V}
    (h : (w.onExecutor name g).2 = .done) :
    ∃ e, w.executor name = .ok e ∧ w.onExecutor name g = g e ∧ (g e).2 = .done := by
  unfold onExecutor at h ⊢
  split at h
  · rename_i e he
    exact ⟨e, he, rfl, h⟩
  · cases h

theorem accepted_done {name : String} {kind : HandleKind} {r : World V × Except TaskError Nat}
    (h : (accepted name kind r).2 = .done) :
    ∃ c, r.2 = .ok c ∧ (accepted name kind r).1 = r.1.nameFuture name ⟨c, kind⟩ := by
  obtain ⟨w', a⟩ := r
  cases a with
  | ok c => exact ⟨c, rfl, rfl⟩
  | error err => cases h

/-- A state in which an executor was given a task, whose future may have got its name. -/
def Given (w : World V) (e : Nat) (d : Errand V) (w' : World V) : Prop :=
  ∃ (work : Work V) (mark : Option Mark) (notices : List Notice) (names : Names Handle),
    work.batch? = none ∧ work.bodies = d.bodies ∧
      (∀ n, d.Spares (.future n) → names.get? n = w.futureNames.get? n) ∧
      w' = { (w.addChild e d.name work mark).1 with notices := notices, futureNames := names }

/-- The future of an accepted task gets its name. -/
theorem given_accepted {executor future : String} {kind : HandleKind} {work : Work V}
    {mark : Option Mark} (notices : List Notice) (halone : work.batch? = none)
    (h : (accepted future kind
      ({ w with notices := notices }.enrol e future work mark)).2 = .done) :
    w.Given e ⟨executor, future, some future, work.bodies⟩
      (accepted future kind ({ w with notices := notices }.enrol e future work mark)).1 := by
  obtain ⟨c, hok, heq⟩ := accepted_done h
  rw [heq, (enrol_accepted hok).2]
  refine ⟨work, mark, notices, w.futureNames.put future ⟨c, kind⟩, halone, rfl, fun n hn => ?_, rfl⟩
  rw [Names.get?_put, if_neg]
  rintro rfl
  exact hn n rfl rfl

theorem given_onExecutor {name : String} {g : Nat → World V × Answer V}
    (hdone : (w.onExecutor name g).2 = .done)
    (hg : ∀ e, (g e).2 = .done → w.Given e d (g e).1) :
    ∃ e, w.executor name = .ok e ∧ w.Given e d (w.onExecutor name g).1 := by
  obtain ⟨e, he, heq, hanswer⟩ := onExecutor_done hdone
  exact ⟨e, he, heq ▸ hg e hanswer⟩

/-- A call that is accepted gives its task to the executor that it names. -/
theorem perform_errand (hd : c.errand? = some d) (hdone : (w.perform c).2 = .done) :
    ∃ e, w.executor d.executor = .ok e ∧ w.Given e d (w.perform c).1 := by
  cases c with
  | execute executor task body =>
    cases hd
    refine given_onExecutor hdone fun e => ?_
    split
    · rename_i w' c hsubmit
      have hw : (w.addChild e task (.once .unwanted body) none).1 = w' := by
        rw [← (enrol_accepted (congrArg Prod.snd hsubmit)).2]
        exact congrArg Prod.fst hsubmit
      exact fun _ => ⟨.once .unwanted body, none, w.notices, w.futureNames, rfl, rfl,
        fun _ _ => rfl, hw.symm⟩
    · rintro ⟨⟩
  | submit executor future instead body =>
    cases hd
    exact given_onExecutor hdone fun e => given_accepted w.notices rfl
  | schedule executor future delay body =>
    cases hd
    refine given_onExecutor hdone fun e => ?_
    unfold schedule
    split
    · rintro ⟨⟩
    · exact given_accepted w.notices rfl
  | repeating executor future pace initial runs =>
    cases hd
    refine given_onExecutor hdone fun e => ?_
    unfold scheduleRepeating
    dsimp only
    split
    · rintro ⟨⟩
    · split
      · rintro ⟨⟩
      · exact given_accepted _ rfl
  | _ => cases hd

/-- A task that keeps to itself is tame. -/
theorem tame_of_looks {σ : Pairing} {work : Work V} (h : ∀ body ∈ work.bodies, body.Looks) :
    work.Tame σ 0 := by
  have hbody {body : Body V} (hl : body.Looks) : body.Tame σ := by
    cases body with
    | broken => trivial
    | steps s =>
      intro x hx
      have := hl x hx
      cases x with
      | act c => cases c <;> trivial
      | _ => trivial
  cases work with
  | periodic pace runs =>
    intro k _
    unfold bodyForRun
    cases hn : runs[k]? with
    | some b => exact hbody (h b (List.mem_of_getElem? hn))
    | none =>
      cases hl : runs.getLast? with
      | some b => exact hbody (h b (List.mem_of_getLast? hl))
      | none => exact fun x hx => by cases hx
  | _ => exact hbody (h _ (List.mem_singleton.mpr rfl))

/-- The two runs when the task has been handed in in one of them. -/
theorem deleting_abreast (hr : Reached (.caller none) w) (hw : w.Speaks d.Spares)
    (hd : c.errand? = some d) (hdone : (w.perform c).2 = .done)
    (hlooks : ∀ body ∈ d.bodies, body.Looks) (he : w.executor d.executor = .ok e) :
    Abreast (w.deleting e d) (w.perform c).1 w := by
  obtain ⟨k, hk, work, mark, notices, names, halone, hbodies, hnames, heq⟩ :=
    perform_errand hd hdone
  obtain rfl : e = k := Except.ok.inj (he.symm.trans hk)
  refine ⟨?_, (perform_leads c).reached hr, hr, fun _ _ => False.elim⟩
  have h := deleting_paired hr hw (executor_lt hr he) d.name mark halone
    (tame_of_looks (σ := w.deleting e d) (hbodies ▸ hlooks))
  rw [heq]
  exact { h with
    futureNames := fun n hn => by
      show Option.Rel _ (names.get? n) (w.futureNames.get? n)
      rw [hnames n (not_not.mp hn)]
      exact h.futureNames n hn
    ownLeft := fun _ _ => False.elim }

end Call

end World

/-! ## What stays the same -/

/-- Answers agree, unless both tell of the life or the counters of an executor. -/
def Answer.Alike (a b : Answer V) : Prop := a = b ∨ a.IsLife ∧ b.IsLife

/-- Entries agree, answers about the life of an executor apart. -/
def Entry.Alike (x y : Entry V) : Prop :=
  x.time = y.time ∧ x.who = y.who ∧
    (x.event = y.event ∨ ∃ a b, x.event = .answered a ∧ y.event = .answered b ∧ a.Alike b)

/-- The same that befell a task whose cell stands at another place. -/
def Happening.rename (g : Nat → Nat) : Happening V → Happening V
  | .called c => .called (g c)
  | .polled c => .polled (g c)
  | .ended c r => .ended (g c) r
  | .cancelled c => .cancelled (g c)
  | h => h

/-- What a call, or a movement of the clock, names. -/
def ScenarioStep.mentions : ScenarioStep V → List Mention
  | .call c => c.mentions
  | _ => []

namespace World

/-- Whether some waiter of that name waits for the termination of an executor. -/
def AwaitsEnd (w : World V) (e : Nat) (name : String) : Prop :=
  ∃ x ∈ w.waiters, x.name = name ∧ ∃ bound, x.request = .termination e bound

/-- Whether a run `u` in which executor `e` of `w` was given one task more than in `v` agrees with
`v` on everything but that task: on who the other tasks are, on their outcomes, on when each of them
was called, went on, ended or was cancelled, and on what was noted and when. Left out of account are
what those note who wait for the termination of that executor, and answers that tell of the life or
the counters of an executor. -/
structure SameBut (w : World V) (e : Nat) (d : Errand V) (u v : World V) : Prop where
  task : ∃ child, u.children[w.children.length]? = some child ∧ child.executor = e ∧
    child.name = d.name ∧ child.work.bodies = d.bodies ∧ child.cell = w.cells.length
  others : ∀ j, Option.Rel (fun x y => x.executor = y.executor ∧ x.name = y.name ∧
    x.work = y.work ∧ x.cell = skip w.cells.length y.cell)
    u.children[skip w.children.length j]? v.children[j]?
  outcomes : ∀ c, u.outcomeOf (skip w.cells.length c) = v.outcomeOf c
  happenings : ∀ c, u.history.filter (·.2.cell? == some (skip w.cells.length c)) =
    (v.history.filter (·.2.cell? == some c)).map fun p => (p.1, p.2.rename (skip w.cells.length))
  log : Weave (fun x => x.who = d.name ∨ v.AwaitsEnd e x.who) (fun x => v.AwaitsEnd e x.who)
    Entry.Alike u.log v.log

variable {w u v : World V} {e : Nat} {d : Errand V}

theorem alike_of_answers {a b : Answer V} (h : (w.deleting e d).Answers a b) : a.Alike b :=
  h.imp_right And.right

theorem alike_of_entries {x y : Entry V} (h : (w.deleting e d).Entries x y) : x.Alike y := by
  obtain ⟨t, who, a⟩ := x
  obtain ⟨t', who', b⟩ := y
  obtain ⟨ht, hwho, hab⟩ := h
  refine ⟨ht, hwho, ?_⟩
  cases hab with
  | same => exact .inl rfl
  | answered hab => exact .inr ⟨_, _, rfl, rfl, alike_of_answers hab⟩

/-- Of what is not veiled, the same befell the tasks of the two runs. -/
theorem happenings_of_deleting (h : Paired (w.deleting e d) nobody u v) (c : Nat) :
    u.history.filter (·.2.cell? == some (skip w.cells.length c)) =
      (v.history.filter (·.2.cell? == some c)).map
        fun p => (p.1, p.2.rename (skip w.cells.length)) := by
  have apart {a b : Nat} (hab : (w.deleting e d).cell a b) :
      (some a == some (skip w.cells.length c)) = (some b == some c) := by
    obtain rfl : a = skip w.cells.length b := hab
    by_cases hbc : b = c
    · rw [hbc, beq_self_eq_true, beq_self_eq_true]
    · rw [beq_eq_false_iff_ne.mpr fun heq => hbc (skip_inj (Option.some.inj heq)),
        beq_eq_false_iff_ne.mpr fun heq => hbc (Option.some.inj heq)]
  refine h.history.filter_eq_map (fun p hp => ?_) (fun p hp => ?_) ?_
  · -- What befell the task that is left out.
    obtain ⟨t, k⟩ := p
    refine beq_eq_false_iff_ne.mpr fun heq => ?_
    have hcell : (w.deleting e d).left.cell (skip w.cells.length c) := by
      cases k <;> simp only [Happening.cell?, Option.some.injEq, reduceCtorEq] at heq <;>
        exact heq ▸ hp
    exact hcell c rfl
  · obtain ⟨t, k⟩ := p
    refine beq_eq_false_iff_ne.mpr fun heq => ?_
    have hcell : (w.deleting e d).right.cell c := by
      cases k <;> simp only [Happening.cell?, Option.some.injEq, reduceCtorEq] at heq <;>
        exact heq ▸ hp
    exact hcell _ rfl
  · rintro ⟨t, a⟩ ⟨_, b⟩ ⟨rfl, hab⟩
    cases hab with
    | called hab => exact ⟨apart hab, by rw [show _ = skip _ _ from hab]; rfl⟩
    | polled hab => exact ⟨apart hab, by rw [show _ = skip _ _ from hab]; rfl⟩
    | ended hab r => exact ⟨apart hab, by rw [show _ = skip _ _ from hab]; rfl⟩
    | cancelled hab => exact ⟨apart hab, by rw [show _ = skip _ _ from hab]; rfl⟩
    | _ => exact ⟨rfl, rfl⟩

/-- Nothing is veiled in the run without the task but the waiters for a termination. -/
theorem awaitsEnd_of_right {y : Waiter V} (hy : y ∈ v.waiters)
    (hq : (w.deleting e d).right.request y.request) : v.AwaitsEnd e y.name := by
  refine ⟨y, hy, rfl, ?_⟩
  cases hreq : y.request with
  | get c bound =>
    rw [hreq] at hq
    exact absurd rfl (hq (skip w.cells.length c))
  | termination k bound =>
    rw [hreq] at hq
    obtain rfl : k = e := hq
    exact ⟨bound, rfl⟩
  | _ => rw [hreq] at hq; exact hq.elim

theorem sameBut_of_paired (h : Paired (w.deleting e d) nobody u v)
    (htask : ∃ child, u.children[w.children.length]? = some child ∧ child.executor = e ∧
      child.name = d.name ∧ child.work.bodies = d.bodies ∧ child.cell = w.cells.length) :
    w.SameBut e d u v where
  task := htask
  others j := by
    have hrel := h.children.rel (i := skip w.children.length j) (j := j) rfl
    revert hrel
    generalize u.children[skip w.children.length j]? = x
    generalize v.children[j]? = y
    rintro (hxy | _)
    · exact .some ⟨hxy.executor, hxy.name, hxy.work, hxy.cell⟩
    · exact .none
  outcomes _ := h.outcomeOf_eq rfl
  happenings := happenings_of_deleting h
  log := by
    refine h.log.mono (fun x hx => ?_) (fun y hy => ?_) fun _ _ => alike_of_entries
    · rcases hx with ⟨i, child, hv, hc, hwho⟩ | ⟨j, x', hx, hq, hwho⟩
      · obtain rfl := deleting_left_child.mp hv
        obtain ⟨x, hx, -, hname, -⟩ := htask
        obtain rfl := Option.some.inj (hc.symm.trans hx)
        exact .inl (hwho.symm.trans hname)
      · -- A waiter that is veiled on one side is so on the other.
        obtain ⟨y', hy, hxy⟩ := h.waiters.get rfl hx
        rcases hxy.request with ⟨hreq, -⟩ | ⟨-, hq'⟩
        · exact absurd hq hreq.not_left
        · refine .inr ?_
          rw [← hwho, hxy.name]
          exact awaitsEnd_of_right (List.mem_of_getElem? hy) hq'
    · rcases hy with ⟨j, child, hv, -⟩ | ⟨j, y', hy, hq, hwho⟩
      · exact absurd rfl (hv (skip w.children.length j))
      · rw [← hwho]
        exact awaitsEnd_of_right (List.mem_of_getElem? hy) hq

end World

/-! ## The runs afterwards -/

section Afterwards

variable {w : World V} {e : Nat} {d : Errand V} {c : Call V} {later : List (ScenarioStep V)}

theorem ScenarioStep.polite_of_spares {s : ScenarioStep V} (h : ∀ m ∈ s.mentions, d.Spares m) :
    s.Polite (w.deleting e d) := by
  cases s with
  | call c => exact World.polite_of_spares h
  | _ => trivial

/-- The runs with and without a task that keeps to itself and that nobody names. -/
theorem Played.deleting_after (hp : Played w) (hw : w.Speaks d.Spares) (hd : c.errand? = some d)
    (hdone : (w.perform c).2 = .done) (hlooks : ∀ body ∈ d.bodies, body.Looks)
    (he : w.executor d.executor = .ok e) (hlater : ∀ s ∈ later, ∀ m ∈ s.mentions, d.Spares m)
    (hin : ((w.perform c).1.after later).InTime) :
    Abreast (w.deleting e d) ((w.perform c).1.after later) (w.after later) :=
  (deleting_abreast hp.reached hw hd hdone hlooks he).after_inTime (hp.call c) hp
    (fun s hs => ScenarioStep.fair_of_polite (ScenarioStep.polite_of_spares (hlater s hs))) hin

/-- What a later step shows does not tell whether the task was handed in. -/
theorem Played.deleting_answer (hp : Played w) (hw : w.Speaks d.Spares) (hd : c.errand? = some d)
    (hdone : (w.perform c).2 = .done) (hlooks : ∀ body ∈ d.bodies, body.Looks)
    (he : w.executor d.executor = .ok e) (hlater : ∀ s ∈ later, ∀ m ∈ s.mentions, d.Spares m)
    {s : ScenarioStep V} (hs : ∀ m ∈ s.mentions, d.Spares m)
    (hin : (((w.perform c).1.after later).take s).1.InTime) :
    Option.Rel Answer.Alike (((w.perform c).1.after later).take s).2
      ((w.after later).take s).2 := by
  have hplayed := (hp.call c).after later
  have habreast := hp.deleting_after hw hd hdone hlooks he hlater
    (InTime.before hin (take_way s hplayed.reached).ops.later)
  have hrel := habreast.take_answer (ScenarioStep.polite_of_spares hs) (hplayed.calmStep s hin)
    (habreast.calmStep_right hplayed (hp.after later) s hin)
  revert hrel
  generalize (((w.perform c).1.after later).take s).2 = a
  generalize ((w.after later).take s).2 = b
  rintro (hab | _)
  · exact .some (alike_of_answers hab)
  · exact .none

/-- The task stays what it was handed in as. -/
theorem World.Later.task (hd : c.errand? = some d) (hdone : (w.perform c).2 = .done)
    (he : w.executor d.executor = .ok e) {u : World V} (hu : Later (w.perform c).1 u) :
    ∃ child, u.children[w.children.length]? = some child ∧ child.executor = e ∧
      child.name = d.name ∧ child.work.bodies = d.bodies ∧ child.cell = w.cells.length := by
  obtain ⟨k, hk, work, mark, notices, names, -, hbodies, -, heq⟩ := perform_errand hd hdone
  obtain rfl : e = k := Except.ok.inj (he.symm.trans hk)
  have hc : (w.perform c).1.children[w.children.length]? =
      some { executor := e, id := (w.executors[e]?.map (·.nextId)).getD 0, cell := w.cells.length
             name := d.name, work } := by
    rw [heq]
    exact List.getElem?_concat_length
  obtain ⟨child, hchild, hkept⟩ := hu.children _ _ hc
  exact ⟨child, hchild, hkept.executor, hkept.name, (congrArg Work.bodies hkept.work).trans hbodies,
    hkept.cell⟩

end Afterwards

/-- In a run in which a mark can hold how far the clock is past the making of each executor, a task
that one call hands in from outside can be left out, if it only waits and looks around and neither
another body nor a later step names it. Whatever becomes of the task, all others do and yield what
they would without it, at the same times, and all later steps show the same. -/
theorem left_out {jumps : Bool} {earlier later : List (ScenarioStep V)} {c : Call V}
    {d : Errand V} {w : World V} (hw : w = (World.start jumps).after earlier)
    (hd : c.errand? = some d) (hdone : (w.perform c).2 = .done)
    (hlooks : ∀ body ∈ d.bodies, body.Looks)
    (hearlier : ∀ s ∈ earlier, ∀ m ∈ s.mentionsWithin, d.Spares m)
    (hlater : ∀ s ∈ later, ∀ m ∈ s.mentions, d.Spares m)
    (hin : (w.after (.call c :: later)).InTime) :
    ∃ e, w.executor d.executor = .ok e ∧
      w.SameBut e d (w.after (.call c :: later)) (w.after later) ∧
      ∀ before s rest, later = before ++ s :: rest → Option.Rel Answer.Alike
        ((w.after (.call c :: before)).take s).2 ((w.after before).take s).2 := by
  subst hw
  have hp : Played ((World.start (V := V) jumps).after earlier) :=
    (Played.start jumps).after earlier
  have hspeaks := (Speaks.start (V := V) (P := d.Spares) jumps).after (.start jumps) hearlier
  obtain ⟨e, he, -⟩ := perform_errand hd hdone
  refine ⟨e, he, ?_, ?_⟩
  · exact sameBut_of_paired (hp.deleting_after hspeaks hd hdone hlooks he hlater hin).paired
      (Later.task hd hdone he (after_way later (hp.call c).reached).ops.later)
  · rintro before s rest rfl
    refine hp.deleting_answer hspeaks hd hdone hlooks he
      (fun s hs => hlater s (List.mem_append_left _ hs))
      (hlater s (List.mem_append_right _ List.mem_cons_self)) ?_
    have hplayed := ((hp.call c).after before).take s
    refine InTime.before ?_ (after_way rest hplayed.reached).ops.later
    have hsplit : (((World.start jumps).after earlier).perform c).1.after (before ++ s :: rest) =
        (((((World.start jumps).after earlier).perform c).1.after before).take s).1.after rest :=
      List.foldl_append ..
    exact hsplit ▸ hin

/-- An executor with a task that sleeps. -/
def sharedPool : World Nat :=
  (World.start true).after
    [.call (.create "pool" none none none none),
      .call (.submit "pool" "kept" none (.steps [.sleep ⟨13, by decide⟩, .ok (some 1)]))]

/-- A task that breaks off. -/
def extraTask : Call Nat :=
  .submit "pool" "extra" none (.steps [.sleep ⟨18, by decide⟩, .panic])

/-- A third task waits for the first. -/
def laterSteps : List (ScenarioStep Nat) :=
  [.call (.submit "pool" "next" none (.steps [.join "kept", .ok (some 2)])),
    .advance ⟨26, by decide⟩]

theorem left_out_sharedPool :
    (sharedPool.perform extraTask).2 = .done ∧
      (sharedPool.after (.call extraTask :: laterSteps)).outcomeOf 1 = some .cancelled ∧
      (sharedPool.after laterSteps).outcomeOf 1 = some (.completed (some 2)) ∧
      (sharedPool.after (.call extraTask :: laterSteps)).outcomeOf 2 =
        (sharedPool.after laterSteps).outcomeOf 1 := by
  have hin : (sharedPool.after (.call extraTask :: laterSteps)).InTime :=
    show ∀ x ∈ (sharedPool.after (.call extraTask :: laterSteps)).executors,
      (sharedPool.after (.call extraTask :: laterSteps)).now < x.origin + (UInt64.size - 1) by
        decide
  obtain ⟨e, -, hsame, -⟩ := left_out (w := sharedPool) (c := extraTask) rfl rfl rfl
    (by simp [Body.Looks, Step.Looks])
    (by simp [ScenarioStep.mentionsWithin, Call.mentionsWithin, Body.mentions, Step.mentionsOf,
      Step.mentions])
    (by simp [laterSteps, ScenarioStep.mentions, Call.mentions, Body.mentions, Step.mentionsOf,
      Step.mentions, Errand.Spares]) hin
  have hplace : skip sharedPool.cells.length 1 = 2 := rfl
  exact ⟨rfl, rfl, rfl, hplace ▸ hsame.outcomes 1⟩

end TimedTasks
